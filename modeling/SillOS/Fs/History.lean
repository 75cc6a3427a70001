import SillOS.Fs.TmpFs

/-!
# File contents and the history of calls

The history records each call with its success. What a path holds is read off the
events since its last removal: it exists if one of them created it, and its data is
what was written last.
-/

namespace SillOS.Fs.TmpFs

/-! ## The history -/

/-- The calls made from a file system on, each with its success. -/
def logFrom (fs : TmpFs) : List Op → List (Op × Bool)
  | [] => []
  | op :: ops => (op, (fs.apply op).2.isOk) :: logFrom (fs.apply op).1 ops

/-- The history of some calls on an empty file system. -/
def log (ops : List Op) : List (Op × Bool) := logFrom new ops

private theorem log_concat (ops : List Op) (op : Op) :
    log (ops ++ [op]) = log ops ++ [(op, ((after ops).apply op).2.isOk)] := by
  have hgeneral : ∀ fs, logFrom fs (ops ++ [op]) = logFrom fs ops ++
      [(op, ((ops.foldl (fun fs op => (fs.apply op).1) fs).apply op).2.isOk)] := by
    induction ops with
    | nil => exact fun fs => rfl
    | cons first ops ih => exact fun fs => congrArg _ (ih _)
  exact hgeneral new

/-- A successful call that creates the path if it is not there. -/
def creates (p : Path) : Op × Bool → Bool
  | (.touch path, true) => path = p
  | (.write path _, true) => path = p
  | _ => false

/-- A successful removal of the path. -/
def removes (p : Path) : Op × Bool → Bool
  | (.remove path, true) => path = p
  | _ => false

/-- The data of a successful write to the path. -/
def written (p : Path) : Op × Bool → Option (List UInt8)
  | (.write path data, true) => if path = p then some data else none
  | _ => none

/-- The events since the last removal of a path. -/
def sinceRemoved (p : Path) (log : List (Op × Bool)) : List (Op × Bool) :=
  log.rtakeWhile fun e => !removes p e

/-- The path was created and not removed since. -/
def Created (p : Path) (log : List (Op × Bool)) : Prop := ∃ e ∈ sinceRemoved p log, creates p e

/-- The data of the last write since the path was created. -/
def lastWritten (p : Path) (log : List (Op × Bool)) : Option (List UInt8) :=
  (sinceRemoved p log).reverse.findSome? (written p)

section Events

variable {p : Path} {log : List (Op × Bool)} {e : Op × Bool}

private theorem sinceRemoved_concat_of_removes (h : removes p e) :
    sinceRemoved p (log ++ [e]) = [] :=
  List.rtakeWhile_concat_neg _ _ _ (by simp [h])

private theorem sinceRemoved_concat (h : removes p e = false) :
    sinceRemoved p (log ++ [e]) = sinceRemoved p log ++ [e] :=
  List.rtakeWhile_concat_pos _ _ _ (by simp [h])

private theorem created_concat (h : removes p e = false) :
    Created p (log ++ [e]) ↔ Created p log ∨ creates p e := by
  unfold Created
  rw [sinceRemoved_concat h]
  simp only [List.mem_append, List.mem_singleton, or_and_right, exists_or, exists_eq_left]

private theorem lastWritten_concat (h : removes p e = false) :
    lastWritten p (log ++ [e]) = (written p e).or (lastWritten p log) := by
  unfold lastWritten
  rw [sinceRemoved_concat h, List.reverse_concat, List.findSome?_cons]
  cases written p e <;> rfl

/-- Whoever writes also creates. -/
theorem lastWritten_of_not_created (h : ¬Created p log) : lastWritten p log = none := by
  unfold lastWritten
  rw [List.findSome?_eq_none_iff]
  intro e he
  rw [List.mem_reverse] at he
  have hcreates : ¬creates p e := fun hcreates => h ⟨e, he, hcreates⟩
  unfold written
  split
  · rw [if_neg]
    rintro rfl
    exact hcreates (by simp [creates])
  · rfl

/-- The recorded contents of a path. -/
def Recorded (p : Path) (log : List (Op × Bool)) (contents : Option (List UInt8)) : Prop :=
  (Created p log ∧ contents = some ((lastWritten p log).getD [])) ∨
    (¬Created p log ∧ contents = none)

variable {contents : Option (List UInt8)}

private theorem recorded_nil : Recorded p [] none := Or.inr ⟨by simp [Created, sinceRemoved], rfl⟩

/-- An event that concerns other paths, or that fails. -/
theorem Recorded.skip (h : Recorded p log contents) (hcreates : creates p e = false)
    (hremoves : removes p e = false) (hwritten : written p e = none) :
    Recorded p (log ++ [e]) contents := by
  unfold Recorded at h ⊢
  simpa only [created_concat hremoves, lastWritten_concat hremoves, hcreates, hwritten,
    Bool.false_eq_true, or_false, Option.none_or] using h

/-- A file that is touched has what it had, or is empty. -/
theorem Recorded.touch (h : Recorded p log contents) :
    Recorded p (log ++ [(.touch p, true)]) (some (contents.getD [])) := by
  have hcreated : Created p (log ++ [(.touch p, true)]) :=
    (created_concat rfl).mpr (Or.inr (by simp [creates]))
  refine Or.inl ⟨hcreated, ?_⟩
  rw [lastWritten_concat rfl]
  obtain ⟨-, rfl⟩ | ⟨hnew, rfl⟩ := h
  · rfl
  · rw [lastWritten_of_not_created hnew]
    rfl

/-- A file that is written has the data. -/
theorem Recorded.write (data : List UInt8) :
    Recorded p (log ++ [(.write p data, true)]) (some data) := by
  refine Or.inl ⟨(created_concat rfl).mpr (Or.inr (by simp [creates])), ?_⟩
  rw [lastWritten_concat rfl]
  simp [written]

/-- A path that is removed has no file. -/
theorem Recorded.remove : Recorded p (log ++ [(.remove p, true)]) none := by
  refine Or.inr ⟨?_, rfl⟩
  unfold Created
  rw [sinceRemoved_concat_of_removes (by simp [removes])]
  simp

end Events

/-! ## What a call changes -/

variable {fs : TmpFs}

/-- A call that fails changes nothing. -/
theorem apply_of_error {op : Op} {e : FsError} (h : (fs.apply op).2 = .error e) :
    (fs.apply op).1 = fs := by
  obtain ⟨hsame, -⟩ | ⟨_, -, -, -, -, happly⟩ | ⟨_, -, -, -, happly⟩ | ⟨_, _, -, -, happly⟩ |
    ⟨_, -, -, happly⟩ := fs.apply_cases op
  · exact hsame
  · simp [happly] at h
  · simp [happly] at h
  · simp [happly] at h
  · simp [happly] at h

/-- A call changes only its own path. -/
theorem apply_of_ne (fs : TmpFs) {op : Op} {p : Path} (h : op.path ≠ p) :
    (fs.apply op).1.files[p]? = fs.files[p]? ∧ ((fs.apply op).1.isDir p ↔ fs.isDir p) := by
  obtain ⟨hsame, -⟩ | ⟨path, rfl, -, -, -, happly⟩ | ⟨path, rfl, -, -, happly⟩ |
    ⟨path, data, rfl, -, happly⟩ | ⟨path, rfl, -, happly⟩ := fs.apply_cases op
  · rw [hsame]
    exact ⟨rfl, Iff.rfl⟩
  · have hne : path ≠ p := h
    rw [happly]
    simp only [isDir_iff, mem_insert_dir, hne, false_or, and_self]
  · have hne : path ≠ p := h
    rw [happly, getElem?_insertIfNew_file, if_neg hne]
    exact ⟨rfl, Iff.rfl⟩
  · have hne : path ≠ p := h
    rw [happly, getElem?_insert_file, if_neg hne]
    exact ⟨rfl, Iff.rfl⟩
  · have hne : path ≠ p := h
    rw [happly, getElem?_erase_file, if_neg hne]
    exact ⟨rfl, Iff.rfl⟩

/-- No path is a directory and a file. -/
def Exclusive (fs : TmpFs) : Prop := ∀ p, fs.isDir p → p ∉ fs.files

/-- An empty file system has no path twice. -/
theorem exclusive_new : new.Exclusive := fun _ _ => Std.TreeMap.not_mem_emptyc

/-- No call makes a path both a file and a directory. -/
theorem exclusive_apply (h : fs.Exclusive) (op : Op) : (fs.apply op).1.Exclusive := by
  obtain ⟨hsame, -⟩ | ⟨path, -, -, hfile, -, happly⟩ | ⟨path, -, hdir, -, happly⟩ |
    ⟨path, data, -, hdir, happly⟩ | ⟨path, -, -, happly⟩ := fs.apply_cases op
  · rwa [hsame]
  · rw [happly]
    intro p hp
    rw [isDir_iff, mem_insert_dir] at hp
    obtain rfl | rfl | hp := hp
    · exact h root isDir_root
    · exact hfile
    · exact h p (isDir_iff.mpr (Or.inr hp))
  · rw [happly]
    intro p hp hmem
    obtain rfl | hmem := (mem_insertIfNew_file ..).mp hmem
    · exact hdir hp
    · exact h p hp hmem
  · rw [happly]
    intro p hp hmem
    obtain rfl | hmem := (mem_insert_file ..).mp hmem
    · exact hdir hp
    · exact h p hp hmem
  · rw [happly]
    exact fun p hp hmem => h p hp (mem_of_mem_erase_file hmem)

/-- So no history does. -/
theorem exclusive_after (ops : List Op) : (after ops).Exclusive :=
  List.foldlRecOn ops _ exclusive_new fun _ h op _ => exclusive_apply h op

/-! ## Contents -/

/-- One call updates the recorded contents of every path. -/
theorem recorded_apply {log : List (Op × Bool)} {p : Path} (h : Recorded p log fs.files[p]?)
    (op : Op) :
    Recorded p (log ++ [(op, (fs.apply op).2.isOk)]) (fs.apply op).1.files[p]? := by
  obtain ⟨hsame, hreads⟩ | ⟨path, rfl, -, -, -, happly⟩ | ⟨path, rfl, -, -, happly⟩ |
    ⟨path, data, rfl, -, happly⟩ | ⟨path, rfl, -, happly⟩ := fs.apply_cases op
  · rw [hsame]
    obtain ⟨e, he⟩ | hop | hop := hreads
    · rw [he]
      exact h.skip (by cases op <;> rfl) (by cases op <;> rfl) (by cases op <;> rfl)
    · rw [hop]
      exact h.skip rfl rfl rfl
    · rw [hop]
      exact h.skip rfl rfl rfl
  · rw [happly]
    exact h.skip rfl rfl rfl
  · rw [happly, getElem?_insertIfNew_file]
    split_ifs with heq
    · exact heq ▸ h.touch
    · exact h.skip (by simp [creates, heq, Except.isOk, Except.toBool]) rfl rfl
  · rw [happly, getElem?_insert_file]
    split_ifs with heq
    · exact heq ▸ Recorded.write data
    · exact h.skip (by simp [creates, heq, Except.isOk, Except.toBool]) rfl
        (by simp [written, heq, Except.isOk, Except.toBool])
  · rw [happly, getElem?_erase_file]
    split_ifs with heq
    · exact heq ▸ Recorded.remove
    · exact h.skip rfl (by simp [removes, heq, Except.isOk, Except.toBool]) rfl

private theorem recorded_after (ops : List Op) (p : Path) :
    Recorded p (log ops) (after ops).files[p]? := by
  induction ops using List.reverseRecOn with
  | nil => exact recorded_nil
  | append_singleton ops op ih =>
    rw [log_concat, after_concat]
    exact recorded_apply ih op

/-- After any calls, reading a path gives what the history says it holds; failed calls
change nothing, calls change only their own path, and no path is a file and a directory. -/
theorem contents_follow_history (ops : List Op) :
    (∀ p, (∀ data, (after ops).read p = .ok data ↔
        Created p (log ops) ∧ data = (lastWritten p (log ops)).getD []) ∧
      (¬Created p (log ops) → (after ops).read p = .error .NotFound)) ∧
    (∀ op e, ((after ops).apply op).2 = .error e → ((after ops).apply op).1 = after ops) ∧
    (∀ op p, op.path ≠ p → ((after ops).apply op).1.read p = (after ops).read p ∧
      (((after ops).apply op).1.isDir p ↔ (after ops).isDir p)) ∧
    (∀ p, ¬((after ops).isDir p ∧ p ∈ (after ops).files)) ∧
    (after ops).isDir root ∧ root ∉ (after ops).files := by
  have hexclusive := exclusive_after ops
  refine ⟨fun p => ?_, fun op e => apply_of_error, fun op p h => ?_,
    fun p h => hexclusive p h.1 h.2, isDir_root, hexclusive root isDir_root⟩
  · obtain ⟨hcreated, hdata⟩ | ⟨hcreated, hnone⟩ := recorded_after ops p
    · refine ⟨fun data => ?_, fun h => absurd hcreated h⟩
      rw [read_eq_ok_iff, hdata, Option.some_inj, and_iff_right hcreated, eq_comm]
    · refine ⟨fun data => ?_, fun _ => read_of_not_mem hnone⟩
      rw [read_eq_ok_iff, hnone]
      exact iff_of_false (Option.some_ne_none _ ·.symm) fun h => hcreated h.1
  · have hframe := (after ops).apply_of_ne h
    exact ⟨by rw [read, read, hframe.1], hframe.2⟩

end SillOS.Fs.TmpFs

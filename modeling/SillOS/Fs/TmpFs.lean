import SillOS.Core.Segments

/-!
# The in-memory file system

Files and directories are kept in two flat maps whose keys are the path strings as
they were given. The parent and the name of an entry are computed from its key,
with the slashes at its end trimmed, whenever they are needed.
-/

namespace SillOS.Fs

open Segments

/-- A path, as its characters. -/
abbrev Path := List Char

/-- The root directory. -/
def root : Path := ['/']

inductive Entry where
  | file (name : Path)
  | dir (name : Path)
  deriving DecidableEq, Repr

/-- The name that a listing shows. -/
def Entry.name : Entry → Path
  | .file name => name
  | .dir name => name

inductive FsError where
  | NotFound
  | AlreadyExists
  | NotADirectory
  | IsADirectory
  deriving DecidableEq, Repr

/-- The directory that a path is in. -/
def parentOf (path : Path) : Path :=
  match rfind '/' (trimEnd '/' path) with
  | some 0 => root
  | some idx => path.take idx
  | none => root

/-- The last segment of a path. -/
def lastSegment (path : Path) : Path := lastPiece '/' (trimEnd '/' path)

/-- The files with their contents, and the directories other than the root. -/
structure TmpFs where
  files : Std.TreeMap Path (List UInt8)
  dirs : Std.TreeSet Path

namespace TmpFs

def new : TmpFs := ⟨∅, ∅⟩

def isDir (fs : TmpFs) (path : Path) : Bool := path == root || fs.dirs.contains path

/-- Create a directory. -/
def mkdir (fs : TmpFs) (path : Path) : TmpFs × Except FsError Unit :=
  if path == root || fs.isDir path || fs.files.contains path then (fs, .error .AlreadyExists)
  else
    let parent := parentOf path
    if !fs.isDir parent then (fs, .error .NotFound)
    else ({ fs with dirs := fs.dirs.insert path }, .ok ())

/-- Create an empty file, unless there is one already. -/
def touch (fs : TmpFs) (path : Path) : TmpFs × Except FsError Unit :=
  if fs.isDir path then (fs, .error .IsADirectory)
  else
    let parent := parentOf path
    if !fs.isDir parent then (fs, .error .NotFound)
    else ({ fs with files := fs.files.insertIfNew path [] }, .ok ())

/-- The entries of a directory: its directories, then its files. -/
def listEntries (fs : TmpFs) (path : Path) : Except FsError (List Entry) :=
  if !fs.isDir path then .error .NotFound
  else
    let dirs := fs.dirs.toList.filterMap fun dir =>
      if parentOf dir = path then some (Entry.dir (lastSegment dir)) else none
    let files := fs.files.keys.filterMap fun file =>
      if parentOf file = path then some (Entry.file (lastSegment file)) else none
    .ok (dirs ++ files)

def read (fs : TmpFs) (path : Path) : Except FsError (List UInt8) :=
  match fs.files[path]? with
  | some data => .ok data
  | none => .error .NotFound

/-- Set the contents of a file. -/
def write (fs : TmpFs) (path : Path) (data : List UInt8) : TmpFs × Except FsError Unit :=
  if fs.isDir path then (fs, .error .IsADirectory)
  else ({ fs with files := fs.files.insert path data }, .ok ())

/-- The names of the entries of a directory, directories with a slash. -/
def list (fs : TmpFs) (path : Path) : Except FsError (List Path) :=
  (fs.listEntries path).map fun entries => entries.map fun
    | .file name => name
    | .dir name => name ++ ['/']

/-- Remove a file. -/
def remove (fs : TmpFs) (path : Path) : TmpFs × Except FsError Unit :=
  match fs.files[path]? with
  | some _ => ({ fs with files := fs.files.erase path }, .ok ())
  | none => (fs, .error .NotFound)

/-! ## Calls -/

/-- The calls on a file system. -/
inductive Op where
  | mkdir (path : Path)
  | touch (path : Path)
  | write (path : Path) (data : List UInt8)
  | remove (path : Path)
  | read (path : Path)
  | list (path : Path)
  deriving DecidableEq

/-- The path that a call is about. -/
def Op.path : Op → Path
  | .mkdir path | .touch path | .write path _ | .remove path | .read path | .list path => path

/-- The effect of a call and whether it succeeds. -/
def apply (fs : TmpFs) : Op → TmpFs × Except FsError Unit
  | .mkdir path => fs.mkdir path
  | .touch path => fs.touch path
  | .write path data => fs.write path data
  | .remove path => fs.remove path
  | .read path => (fs, (fs.read path).map fun _ => ())
  | .list path => (fs, (fs.list path).map fun _ => ())

/-- The file system after some calls. -/
def after (ops : List Op) : TmpFs := ops.foldl (fun fs op => (fs.apply op).1) new

/-- One more call. -/
theorem after_concat (ops : List Op) (op : Op) :
    after (ops ++ [op]) = ((after ops).apply op).1 := by
  rw [after, List.foldl_append]
  rfl

/-- A stored entry. -/
def Stored (fs : TmpFs) (path : Path) : Prop := path ∈ fs.dirs ∨ path ∈ fs.files

variable {fs : TmpFs} {path : Path}

/-- The directories are the root and what is stored as one. -/
theorem isDir_iff : fs.isDir path ↔ path = root ∨ path ∈ fs.dirs := by
  rw [isDir, Bool.or_eq_true, beq_iff_eq, Std.TreeSet.contains_iff_mem]

/-- The root is a directory. -/
@[simp] theorem isDir_root : fs.isDir root := isDir_iff.mpr (Or.inl rfl)

/-! ## The maps -/

/-- Inserting a file changes its own path only. -/
theorem getElem?_insert_file (files : Std.TreeMap Path (List UInt8)) (path p : Path)
    (data : List UInt8) :
    (files.insert path data)[p]? = if path = p then some data else files[p]? := by
  simp only [Std.TreeMap.getElem?_insert, Std.compare_eq_iff_eq]

/-- A file that exists is left as it is. -/
theorem getElem?_insertIfNew_file (files : Std.TreeMap Path (List UInt8)) (path p : Path)
    (data : List UInt8) :
    (files.insertIfNew path data)[p]? =
      if path = p then some (files[p]?.getD data) else files[p]? := by
  simp only [Std.TreeMap.getElem?_insertIfNew, Std.compare_eq_iff_eq]
  by_cases hp : path = p
  · subst hp
    by_cases hmem : path ∈ files
    · rw [if_neg (fun h => h.2 hmem), if_pos rfl]
      rw [Std.TreeMap.mem_iff_isSome_getElem?, Option.isSome_iff_exists] at hmem
      obtain ⟨old, hold⟩ := hmem
      rw [hold, Option.getD_some]
    · rw [if_pos ⟨rfl, hmem⟩, if_pos rfl, Std.TreeMap.getElem?_eq_none hmem, Option.getD_none]
  · rw [if_neg (fun h => hp h.1), if_neg hp]

/-- Erasing a file changes its own path only. -/
theorem getElem?_erase_file (files : Std.TreeMap Path (List UInt8)) (path p : Path) :
    (files.erase path)[p]? = if path = p then none else files[p]? := by
  simp only [Std.TreeMap.getElem?_erase, Std.compare_eq_iff_eq]

/-- The directories after one is inserted. -/
theorem mem_insert_dir (dirs : Std.TreeSet Path) (path p : Path) :
    p ∈ dirs.insert path ↔ path = p ∨ p ∈ dirs := by
  rw [Std.TreeSet.mem_insert, Std.compare_eq_iff_eq]

/-- The files after one is inserted. -/
theorem mem_insert_file (files : Std.TreeMap Path (List UInt8)) (path p : Path)
    (data : List UInt8) : p ∈ files.insert path data ↔ path = p ∨ p ∈ files := by
  rw [Std.TreeMap.mem_insert, Std.compare_eq_iff_eq]

/-- The files after one is touched. -/
theorem mem_insertIfNew_file (files : Std.TreeMap Path (List UInt8)) (path p : Path)
    (data : List UInt8) : p ∈ files.insertIfNew path data ↔ path = p ∨ p ∈ files := by
  rw [Std.TreeMap.mem_insertIfNew, Std.compare_eq_iff_eq]

/-- Erasing adds no file. -/
theorem mem_of_mem_erase_file {files : Std.TreeMap Path (List UInt8)} {path p : Path}
    (h : p ∈ files.erase path) : p ∈ files :=
  (Std.TreeMap.mem_erase.mp h).2

/-- A stored file has contents. -/
theorem mem_files_iff : path ∈ fs.files ↔ fs.files[path]?.isSome :=
  Std.TreeMap.mem_iff_isSome_getElem?

/-- Reading returns the contents of a stored file. -/
theorem read_eq_ok_iff {data : List UInt8} :
    fs.read path = .ok data ↔ fs.files[path]? = some data := by
  unfold read
  cases fs.files[path]? with
  | none => simp
  | some old => simp

/-- Anything else is not found. -/
theorem read_of_not_mem (h : fs.files[path]? = none) : fs.read path = .error .NotFound := by
  rw [read, h]

/-! ## What a call does -/

/-- The five outcomes of a call: nothing changes, by an error or by a call that only
reads; or a directory is added, a file is created, a file is written, or a file is
removed. -/
theorem apply_cases (fs : TmpFs) (op : Op) :
    ((fs.apply op).1 = fs ∧
      ((∃ e, (fs.apply op).2 = .error e) ∨ op = .read op.path ∨ op = .list op.path)) ∨
    (∃ path, op = .mkdir path ∧ ¬fs.isDir path ∧ path ∉ fs.files ∧ fs.isDir (parentOf path) ∧
      fs.apply op = ({ fs with dirs := fs.dirs.insert path }, .ok ())) ∨
    (∃ path, op = .touch path ∧ ¬fs.isDir path ∧ fs.isDir (parentOf path) ∧
      fs.apply op = ({ fs with files := fs.files.insertIfNew path [] }, .ok ())) ∨
    (∃ path data, op = .write path data ∧ ¬fs.isDir path ∧
      fs.apply op = ({ fs with files := fs.files.insert path data }, .ok ())) ∨
    (∃ path, op = .remove path ∧ path ∈ fs.files ∧
      fs.apply op = ({ fs with files := fs.files.erase path }, .ok ())) := by
  cases op with
  | mkdir path =>
    simp only [apply, mkdir]
    split_ifs with hexists hparent
    · exact Or.inl ⟨rfl, Or.inl ⟨_, rfl⟩⟩
    · exact Or.inl ⟨rfl, Or.inl ⟨_, rfl⟩⟩
    · simp only [Bool.or_eq_true, not_or, Std.TreeMap.contains_iff_mem] at hexists
      rw [Bool.not_eq_true', Bool.not_eq_false] at hparent
      exact Or.inr (Or.inl ⟨path, rfl, hexists.1.2, hexists.2, hparent, rfl⟩)
  | touch path =>
    simp only [apply, touch]
    split_ifs with hdir hparent
    · exact Or.inl ⟨rfl, Or.inl ⟨_, rfl⟩⟩
    · exact Or.inl ⟨rfl, Or.inl ⟨_, rfl⟩⟩
    · rw [Bool.not_eq_true', Bool.not_eq_false] at hparent
      exact Or.inr (Or.inr (Or.inl ⟨path, rfl, hdir, hparent, rfl⟩))
  | write path data =>
    simp only [apply, write]
    split_ifs with hdir
    · exact Or.inl ⟨rfl, Or.inl ⟨_, rfl⟩⟩
    · exact Or.inr (Or.inr (Or.inr (Or.inl ⟨path, data, rfl, hdir, rfl⟩)))
  | remove path =>
    simp only [apply, remove]
    split
    · rename_i data hdata
      refine Or.inr (Or.inr (Or.inr (Or.inr ⟨path, rfl, ?_, rfl⟩)))
      rw [Std.TreeMap.mem_iff_isSome_getElem?, hdata]
      rfl
    · exact Or.inl ⟨rfl, Or.inl ⟨_, rfl⟩⟩
  | read path => exact Or.inl ⟨rfl, Or.inr (Or.inl rfl)⟩
  | list path => exact Or.inl ⟨rfl, Or.inr (Or.inr rfl)⟩

end TmpFs

end SillOS.Fs

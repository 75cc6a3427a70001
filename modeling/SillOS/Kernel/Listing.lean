import Mathlib.Data.Char
import Mathlib.Data.List.Lex
import SillOS.Fs.Names
import SillOS.Kernel.Files

/-!
# What `ls` shows

`ls` goes through both maps of the file system and sorts what it finds by name. In every
run it shows each entry of a directory once, whichever lines have made it.
-/

namespace SillOS

open Fb Shell Fs

namespace Shell

/-- Names are ordered by their characters, the first difference deciding. -/
theorem nameLt_iff {a b : Text} : nameLt a b = true ↔ a < b := by
  have hlt : ∀ c d : Char, decide (c.toNat < d.toNat) = true ↔ c < d := by
    intro c d
    rw [decide_eq_true_iff]
    exact Iff.rfl
  rw [nameLt, List.lex_eq_true_iff_lex]
  simp only [hlt]
  exact Iff.rfl

private theorem nameLt_eq_false {a b : Text} : nameLt a b = false ↔ b ≤ a := by
  rw [← not_lt, ← nameLt_iff, Bool.not_eq_true]

/-- Sorting by name leaves no name behind a larger one. -/
theorem pairwise_sortByName {α : Type} (name : α → Text) (l : List α) :
    (l.mergeSort fun a b => !nameLt (name b) (name a)).Pairwise fun a b =>
      nameLt (name b) (name a) = false := by
  have hle : ∀ a b, (!nameLt (name b) (name a)) = true ↔ name a ≤ name b := by
    intro a b
    rw [Bool.not_eq_true', nameLt_eq_false]
  refine (List.pairwise_mergeSort ?_ ?_ l).imp fun h => by simpa using h
  · intro a b c hab hbc
    exact (hle a c).mpr (le_trans ((hle a b).mp hab) ((hle b c).mp hbc))
  · intro a b
    rw [Bool.or_eq_true, hle, hle]
    exact le_total _ _

/-- The line of an entry. -/
def entryLine : Entry → Effect
  | .dir name => .println (some Color.BLUE) (name ++ "/".toList)
  | .file name => line name

/-- `ls` shows the listing sorted by name. -/
theorem ls_eq (k : Kernel) (args : List Text) : ls k args =
    if k.fs.isDir (args.head?.getD "/".toList) then
      ((k.fs.listing (args.head?.getD "/".toList)).mergeSort fun a b =>
        !nameLt b.2.name a.2.name).map fun e => entryLine e.2
    else [line ("ls: cannot access '".toList ++ args.head?.getD "/".toList ++
      "': No such directory".toList)] := by
  rw [ls, TmpFs.listEntries_eq]
  split_ifs
  · have hsort : ((k.fs.listing (args.head?.getD "/".toList)).map Prod.snd).mergeSort
          (fun a b => !nameLt b.name a.name) =
        ((k.fs.listing (args.head?.getD "/".toList)).mergeSort fun a b =>
          !nameLt b.2.name a.2.name).map Prod.snd := by
      rw [List.map_mergeSort]
      exact fun _ _ _ _ => rfl
    dsimp only
    rw [hsort, List.map_map]
    refine List.map_congr_left fun e _ => ?_
    obtain ⟨p, entry⟩ := e
    cases entry <;> rfl
  · rfl

end Shell

namespace Fs.TmpFs

/-- The keys of a listing are distinct. -/
theorem nodup_listing {fs : TmpFs} (h : fs.Exclusive) (d : Path) :
    ((fs.listing d).map Prod.fst).Nodup := by
  have hkeys : (fs.listing d).map Prod.fst =
      (fs.dirs.toList ++ fs.files.keys).filter (parentOf · = d) := by
    have hmap : ∀ (keys : List Path) (entry : Path → Entry),
        (keys.filterMap fun key => if parentOf key = d then some (key, entry key) else none).map
          Prod.fst = keys.filter (parentOf · = d) := by
      intro keys entry
      rw [List.map_filterMap, ← List.filterMap_eq_filter]
      refine List.filterMap_congr fun key _ => ?_
      by_cases hkey : parentOf key = d <;> simp [hkey, Option.guard]
    rw [listing, List.map_append, hmap _ fun key => .dir (lastSegment key),
      hmap _ fun key => .file (lastSegment key), List.filter_append]
  rw [hkeys]
  exact (nodup_keys h).filter _

end Fs.TmpFs

/-- What `ls` prints of a path: the entries that are stored in the directory, each path once,
directories in blue with a slash, and sorted by name; of anything else one line that says
so. -/
def Fs.TmpFs.Shown (fs : TmpFs) (path : Path) (effects : List Effect) : Prop :=
  (fs.isDir path = true → ∃ shown : List (Path × Entry),
    effects = shown.map (fun e => entryLine e.2) ∧
    (shown.map Prod.fst).Nodup ∧
    (∀ p e, (p, e) ∈ shown ↔ parentOf p = path ∧
      (p ∈ fs.dirs ∧ e = .dir (lastSegment p) ∨ p ∈ fs.files ∧ e = .file (lastSegment p))) ∧
    shown.Pairwise fun a b => nameLt b.2.name a.2.name = false) ∧
  (fs.isDir path = false →
    effects = [line ("ls: cannot access '".toList ++ path ++ "': No such directory".toList)])

/-- `ls` prints its path, or the root without one. -/
theorem Shell.shown_ls {k : Kernel} (h : k.fs.Exclusive) (args : List Text) :
    k.fs.Shown (args.head?.getD "/".toList) (ls k args) := by
  refine ⟨fun hdir => ⟨_, (ls_eq k args).trans (if_pos hdir), ?_, fun p e => ?_, ?_⟩,
    fun hdir => (ls_eq k args).trans (if_neg (by rw [hdir]; exact Bool.false_ne_true))⟩
  · exact ((List.mergeSort_perm _ _).map Prod.fst).nodup_iff.mpr
      (TmpFs.nodup_listing h (args.head?.getD "/".toList))
  · rw [List.mem_mergeSort]
    exact TmpFs.mem_listing
  · exact pairwise_sortByName (fun e : Path × Entry => e.2.name) _

/-- A line of `ls` lists, and is starved by a heap that refuses its strings. -/
theorem Shell.execute_ls {text : Text} {args : List Text}
    (h : splitWhitespace text = "ls".toList :: args) (k : Kernel) :
    Shell.execute k text = (ls k args, k) ∧ allocates text = true := by
  have hname : String.ofList "ls".toList = "ls" := String.ofList_toList
  constructor
  · simp only [Shell.execute, h, hname]
  · simp only [allocates, h, hname]
    rfl

/-- Whenever a line of `ls` is handed to the shell in a run in contract, it prints its path as
it is stored then, changes neither the file system nor what lines hold, and prompts again; or
the heap starves it, and the kernel panics instead. -/
theorem Launch.ls_shows_directory (l : Launch) (events : List System.Event)
    (hok : l.InContract events) :
    ∃ x, l.after events = some x ∧ ∀ env key text args,
      x.session.command key = some text → splitWhitespace text = "ls".toList :: args →
      ∃ effects y, x.session.fs.Shown (args.head?.getD "/".toList) effects ∧
        x.step (.key env key) = some y ∧ y.held = x.held ∧ y.session.fs = x.session.fs ∧
        y.session = (if env.starved then (x.session.entered key).perform env .panic
          else (x.session.entered key).performAll env effects).prompt := by
  obtain ⟨x, hx, -, hsession⟩ := exists_after hok
  have htidy : x.session.Tidy :=
    hsession ▸ (Session.tidy_after (Session.tidy_boot l.env l.font l.info l.back l.front) _).1
  refine ⟨x, hx, fun env key text args hline hwords => ?_⟩
  have hexecutes : ∀ k, Shell.execute k text = (ls k args, k) := fun k => (execute_ls hwords k).1
  have hallocates : allocates text = true :=
    (execute_ls hwords (x.session.kernel (env.withHeap x.heap.heap))).2
  have heffects : x.effects env key =
      ls ((x.session.entered key).kernel (env.withHeap x.heap.heap)) args := by
    rw [System.effects, hline]
    exact congrArg Prod.fst (hexecutes _)
  have hkey : x.session.step (env.withHeap x.heap.heap, key) =
      ((x.session.entered key).execute (env.withHeap x.heap.heap) text).prompt :=
    (Session.step_of_executedBy htidy.input
      ((Session.command_eq htidy.input key).symm.trans hline)).2.2
  have hprompt : x.session.step (env.withHeap x.heap.heap, key) =
      (if env.starved then (x.session.entered key).perform env .panic
        else (x.session.entered key).performAll env
          (ls ((x.session.entered key).kernel (env.withHeap x.heap.heap)) args)).prompt := by
    refine hkey.trans (congrArg Session.prompt ?_)
    split_ifs with hstarved
    · exact Session.execute_starved ⟨hstarved, hallocates⟩ _
    · rw [Session.execute_eq fun h => hstarved h.1, hexecutes]
      rfl
  refine ⟨_, { x with session := x.session.step (env.withHeap x.heap.heap, key) },
    shown_ls (k := (x.session.entered key).kernel (env.withHeap x.heap.heap))
      htidy.planted.exclusive args, ?_, rfl, ?_, hprompt⟩
  · rw [System.step, heffects, System.run_silent silent_ls]
    rfl
  · rw [hprompt, Session.prompt_fs]
    split_ifs
    · exact Session.perform_fs _ _ _
    · exact Session.performAll_fs _ _ _

/-- `ls` lists the root behind a run. -/
theorem Launch.ls_shows_directory_row : ∃ x effects y, row.after (rowFirst ++ rowRest) = some x ∧
    x.session.fs.Shown "/".toList effects ∧ x.step (.key .quiet '\n') = some y ∧
    y.session.fs = x.session.fs ∧
    y.session = ((x.session.entered '\n').performAll .quiet effects).prompt := by
  obtain ⟨x, hx, hlists⟩ := ls_shows_directory row (rowFirst ++ rowRest) row_run.1
  obtain ⟨x', hx', -, hcommand⟩ := row_waits
  obtain rfl := Option.some.inj (hx.symm.trans hx')
  obtain ⟨effects, y, hshown, hstep, -, hfs, hsession⟩ :=
    hlists .quiet '\n' "ls".toList [] hcommand (by decide)
  exact ⟨x, effects, y, hx, hshown, hstep, hfs, hsession⟩

end SillOS

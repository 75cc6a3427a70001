import SillOS.Core.Rooted
import SillOS.Fs.TmpFs

/-!
# The file system as a tree

Every call but `write` checks that the parent of what it stores is a directory. The
flat maps are a tree, each entry listed in exactly one directory and reached from the
root, as long as every write is made to a path whose parent is a directory.
-/

namespace SillOS.Fs

open Segments

/-! ## Parents -/

/-- A path without a directory part, or one that is cut at its last slash. -/
theorem path_cases (p : Path) :
    ('/' ∉ trimEnd '/' p ∧ parentOf p = root ∧ lastSegment p = trimEnd '/' p) ∨
      ∃ a n, n ≠ [] ∧ '/' ∉ n ∧ trimEnd '/' p = a ++ '/' :: n ∧
        parentOf p = (if a = [] then root else a) ∧ lastSegment p = n := by
  by_cases hslash : '/' ∈ trimEnd '/' p
  · obtain ⟨a, n, htrim, hn⟩ := exists_last_sep hslash
    refine Or.inr ⟨a, n, segment_ne_nil htrim, hn, htrim, ?_, ?_⟩
    · obtain ⟨k, hk⟩ : ∃ k, p = trimEnd '/' p ++ List.replicate k '/' := trimEnd_append p
      unfold parentOf
      rw [htrim, rfind_append hn]
      cases a with
      | nil => rfl
      | cons x a =>
        rw [htrim, List.append_assoc] at hk
        change p.take (x :: a).length = _
        rw [hk, List.take_left, if_neg (List.cons_ne_nil x a)]
    · rw [lastSegment, htrim, lastPiece_append hn]
  · refine Or.inl ⟨hslash, ?_, lastPiece_of_not_mem hslash⟩
    unfold parentOf
    rw [rfind_of_not_mem hslash]

/-- The parent is the root or a shorter path. -/
theorem parentOf_length (p : Path) : parentOf p = root ∨ (parentOf p).length < p.length := by
  obtain ⟨-, h, -⟩ | ⟨a, n, -, -, htrim, h, -⟩ := path_cases p
  · exact Or.inl h
  · rw [h]
    split_ifs
    · exact Or.inl rfl
    · have hle : (trimEnd '/' p).length ≤ p.length := trimEnd_length_le p
      rw [htrim, List.length_append, List.length_cons] at hle
      exact Or.inr (by omega)

namespace TmpFs

variable {fs : TmpFs}

/-! ## Listings -/

/-- The keys that a listing goes through, each with its entry. -/
def listing (fs : TmpFs) (d : Path) : List (Path × Entry) :=
  (fs.dirs.toList.filterMap fun dir =>
    if parentOf dir = d then some (dir, Entry.dir (lastSegment dir)) else none) ++
  fs.files.keys.filterMap fun file =>
    if parentOf file = d then some (file, Entry.file (lastSegment file)) else none

/-- A directory lists its entries, anything else is an error. -/
theorem listEntries_eq (fs : TmpFs) (d : Path) :
    fs.listEntries d =
      if fs.isDir d then .ok ((fs.listing d).map Prod.snd) else .error .NotFound := by
  have hmap : ∀ (keys : List Path) (entry : Path → Entry),
      (keys.filterMap fun key => if parentOf key = d then some (key, entry key) else none).map
        Prod.snd =
          keys.filterMap fun key => if parentOf key = d then some (entry key) else none := by
    intro keys entry
    rw [List.map_filterMap]
    congr 1
    funext key
    split <;> rfl
  rw [listing, List.map_append, hmap _ fun key => .dir (lastSegment key),
    hmap _ fun key => .file (lastSegment key), listEntries]
  cases fs.isDir d <;> rfl

/-- The entries of a directory are what is stored with it as parent. -/
theorem mem_listing {d p : Path} {e : Entry} :
    (p, e) ∈ fs.listing d ↔ parentOf p = d ∧
      (p ∈ fs.dirs ∧ e = .dir (lastSegment p) ∨ p ∈ fs.files ∧ e = .file (lastSegment p)) := by
  have hmem : ∀ (keys : List Path) (entry : Path → Entry),
      ((p, e) ∈ keys.filterMap fun key =>
        if parentOf key = d then some (key, entry key) else none) ↔
          parentOf p = d ∧ p ∈ keys ∧ e = entry p := by
    intro keys entry
    simp only [List.mem_filterMap, Option.ite_none_right_eq_some, Option.some.injEq, Prod.mk.injEq]
    constructor
    · rintro ⟨key, hkey, hparent, rfl, rfl⟩
      exact ⟨hparent, hkey, rfl⟩
    · rintro ⟨hparent, hp, rfl⟩
      exact ⟨p, hp, hparent, rfl, rfl⟩
  rw [listing, List.mem_append, hmem _ fun key => .dir (lastSegment key),
    hmem _ fun key => .file (lastSegment key), Std.TreeSet.mem_toList, Std.TreeMap.mem_keys,
    ← and_or_left]

/-- The stored entry shows up when the directory is listed. -/
def Lists (fs : TmpFs) (d p : Path) : Prop :=
  fs.listEntries d = .ok ((fs.listing d).map Prod.snd) ∧ ∃ e, (p, e) ∈ fs.listing d

/-- A directory lists what is stored with it as parent. -/
theorem lists_iff {d p : Path} : fs.Lists d p ↔ fs.isDir d ∧ fs.Stored p ∧ parentOf p = d := by
  unfold Lists
  simp only [listEntries_eq, mem_listing]
  constructor
  · rintro ⟨hok, e, hparent, hstored⟩
    refine ⟨?_, hstored.imp And.left And.left, hparent⟩
    by_contra hdir
    rw [if_neg hdir] at hok
    cases hok
  · rintro ⟨hdir, hstored, hparent⟩
    refine ⟨if_pos hdir, ?_⟩
    obtain h | h := hstored
    · exact ⟨_, hparent, Or.inl ⟨h, rfl⟩⟩
    · exact ⟨_, hparent, Or.inr ⟨h, rfl⟩⟩

/-! ## Trees -/

/-- Every stored entry has a directory as its parent, shows up in the listing of exactly
one directory, and is reached from the root by a chain of listings. -/
structure IsTree (fs : TmpFs) : Prop where
  parent : ∀ p, fs.Stored p → fs.isDir (parentOf p)
  listed : ∀ p, fs.Stored p → ∃! d, fs.Lists d p
  reached : ∀ p, fs.Stored p → Relation.ReflTransGen fs.Lists root p

/-- The parents make the tree. -/
theorem isTree_of_parent (h : ∀ p, fs.Stored p → fs.isDir (parentOf p)) : fs.IsTree where
  parent := h
  listed p hp := by
    refine ⟨parentOf p, lists_iff.mpr ⟨h p hp, hp, rfl⟩, fun d hd => ?_⟩
    exact (lists_iff.mp hd).2.2.symm
  reached p hp := by
    have hclosed : ∀ q, fs.Stored q → parentOf q = root ∨ fs.Stored (parentOf q) := fun q hq =>
      (isDir_iff.mp (h q hq)).imp_right Or.inl
    refine Relation.ReflTransGen.mono ?_ _ _ (Rooted.reached hclosed parentOf_length hp)
    intro d q hq
    obtain ⟨hstored, rfl⟩ := hq
    exact lists_iff.mpr ⟨h q hstored, hstored, rfl⟩

/-- An empty file system is a tree. -/
theorem isTree_new : new.IsTree := by
  refine isTree_of_parent fun p hp => ?_
  obtain h | h := hp
  · exact absurd h Std.TreeSet.not_mem_emptyc
  · exact absurd h Std.TreeMap.not_mem_emptyc

/-- A call keeps the tree, a write if its path is or is in a directory. -/
theorem isTree_apply (h : fs.IsTree) {op : Op}
    (hop : ∀ path data, op = .write path data → fs.isDir path ∨ fs.isDir (parentOf path)) :
    (fs.apply op).1.IsTree := by
  obtain ⟨hsame, -⟩ | ⟨path, -, -, -, hparent, happly⟩ | ⟨path, -, -, hparent, happly⟩ |
    ⟨path, data, hwrite, hdir, happly⟩ | ⟨path, -, -, happly⟩ := fs.apply_cases op
  · rwa [hsame]
  · rw [happly]
    refine isTree_of_parent fun p hp => ?_
    have hgrow : ∀ q, fs.isDir q → isDir { fs with dirs := fs.dirs.insert path } q := by
      intro q hq
      rw [isDir_iff, mem_insert_dir]
      exact (isDir_iff.mp hq).imp_right Or.inr
    rw [Stored, mem_insert_dir] at hp
    obtain (rfl | hp) | hp := hp
    · exact hgrow _ hparent
    · exact hgrow _ (h.parent p (Or.inl hp))
    · exact hgrow _ (h.parent p (Or.inr hp))
  · rw [happly]
    refine isTree_of_parent fun p hp => ?_
    rw [Stored, mem_insertIfNew_file] at hp
    obtain hp | rfl | hp := hp
    · exact h.parent p (Or.inl hp)
    · exact hparent
    · exact h.parent p (Or.inr hp)
  · have hparent := (hop path data hwrite).resolve_left hdir
    rw [happly]
    refine isTree_of_parent fun p hp => ?_
    rw [Stored, mem_insert_file] at hp
    obtain hp | rfl | hp := hp
    · exact h.parent p (Or.inl hp)
    · exact hparent
    · exact h.parent p (Or.inr hp)
  · rw [happly]
    exact isTree_of_parent fun p hp => h.parent p (hp.imp_right mem_of_mem_erase_file)

/-! ## Runs -/

/-- Every write of the run is made to a path that is or is in a directory. -/
def WritesParented (ops : List Op) : Prop :=
  ∀ done path data, done ++ [.write path data] <+: ops →
    (after done).isDir path ∨ (after done).isDir (parentOf path)

/-- A history whose writes have parents leaves a tree. -/
theorem isTree_after {ops : List Op} (h : WritesParented ops) : (after ops).IsTree := by
  induction ops using List.reverseRecOn with
  | nil => exact isTree_new
  | append_singleton ops op ih =>
    rw [after_concat]
    refine isTree_apply (ih fun done path data hdone => ?_) fun path data hop => ?_
    · exact h done path data (hdone.trans (List.prefix_append ops [op]))
    · exact h ops path data (hop ▸ List.prefix_rfl)

/-- A run goes through trees only, exactly if every write in it is made to a path that
is or is in a directory. -/
theorem tree_iff (ops : List Op) :
    (∀ done, done <+: ops → (after done).IsTree) ↔ WritesParented ops := by
  constructor
  · intro htree done path data hdone
    by_contra hno
    rw [not_or] at hno
    have h := (htree _ hdone).parent path
    have happly : (after done).apply (.write path data) =
        ({ after done with files := (after done).files.insert path data }, .ok ()) := by
      simp only [apply, write, if_neg hno.1]
    rw [after_concat, happly, Stored, mem_insert_file] at h
    exact hno.2 (h (Or.inr (Or.inl rfl)))
  · intro h done hdone
    exact isTree_after fun before path data hbefore => h before path data (hbefore.trans hdone)

/-- A write below a missing directory stores a file that no directory lists. -/
theorem write_orphan : ¬(after [.write ['/', 'x', '/', 'y'] []]).IsTree := by
  intro h
  have hstored : (after [.write ['/', 'x', '/', 'y'] []]).Stored ['/', 'x', '/', 'y'] :=
    Or.inr (by decide)
  exact absurd (h.parent _ hstored) (by decide)

end TmpFs

end SillOS.Fs

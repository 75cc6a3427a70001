import SillOS.Fs.History
import SillOS.Fs.Tree
import Mathlib.Data.List.Nodup

/-!
# Listed names

A listing shows names that are computed from trimmed keys, and a name is looked up
under the untrimmed path that it forms with its directory. The two agree for keys
that are a directory, one slash and a name.
-/

namespace SillOS.Fs

open Segments

/-- The path of a name in a directory. -/
def join (d n : Path) : Path := if d = root then root ++ n else d ++ '/' :: n

/-- A directory other than the root, possibly empty, one slash, and a name. -/
def Canonical (p : Path) : Prop :=
  ∃ d n, d ≠ root ∧ n ≠ [] ∧ '/' ∉ n ∧ p = d ++ '/' :: n

/-- Nothing but slashes. -/
def Slashes (p : Path) : Prop := ∀ c ∈ p, c = '/'

/-! ## Paths and their parts -/

/-- The parts of a path that ends in a name. -/
theorem parts_append {d n : Path} (hn : n ≠ []) (hslash : '/' ∉ n) :
    parentOf (d ++ '/' :: n) = (if d = [] then root else d) ∧ lastSegment (d ++ '/' :: n) = n := by
  have htrim : trimEnd '/' (d ++ '/' :: n) = d ++ '/' :: n := by
    rw [List.append_cons, trimEnd_append_segment hn hslash]
  constructor
  · unfold parentOf
    rw [htrim, rfind_append hslash]
    cases d with
    | nil => rfl
    | cons x d =>
      change List.take (x :: d).length _ = _
      rw [List.take_left, if_neg (List.cons_ne_nil x d)]
  · rw [lastSegment, htrim, lastPiece_append hslash]

private theorem parentOf_ne_nil (p : Path) : parentOf p ≠ [] := by
  obtain ⟨-, h, -⟩ | ⟨a, n, -, -, -, h, -⟩ := path_cases p
  · rw [h]
    exact List.cons_ne_nil _ _
  · rw [h]
    split_ifs with ha
    · exact List.cons_ne_nil _ _
    · exact ha

private theorem slash_not_mem_lastSegment (p : Path) : '/' ∉ lastSegment p := by
  obtain ⟨hslash, -, h⟩ | ⟨a, n, -, hslash, -, -, h⟩ := path_cases p
  · rwa [h]
  · rwa [h]

private theorem lastSegment_eq_nil_iff {p : Path} : lastSegment p = [] ↔ Slashes p := by
  rw [Slashes, ← trimEnd_eq_nil_iff]
  obtain ⟨-, -, h⟩ | ⟨a, n, hn, -, htrim, -, h⟩ := path_cases p
  · rw [h]
  · rw [h, htrim]
    exact iff_of_false hn (by simp)

/-- The parent of slashes is the root. -/
theorem Slashes.parentOf {p : Path} (h : Slashes p) : parentOf p = root := by
  have htrim := trimEnd_eq_nil_iff.mpr h
  obtain ⟨-, hparent, -⟩ | ⟨a, n, -, -, htrim', -, -⟩ := path_cases p
  · exact hparent
  · rw [htrim] at htrim'
    simp at htrim'

/-- Joining forms a path with the given parts. -/
theorem parts_join {d n : Path} (hd : d ≠ []) (hn : n ≠ []) (hslash : '/' ∉ n) :
    parentOf (join d n) = d ∧ lastSegment (join d n) = n := by
  unfold join
  split_ifs with hroot
  · have h := parts_append (d := []) hn hslash
    rw [if_pos rfl] at h
    subst hroot
    exact h
  · have h := parts_append (d := d) hn hslash
    rwa [if_neg hd] at h

/-- Forming a path from the parts of a path with a name keeps them. -/
theorem parts_join_parts {p : Path} (h : lastSegment p ≠ []) :
    parentOf (join (parentOf p) (lastSegment p)) = parentOf p ∧
      lastSegment (join (parentOf p) (lastSegment p)) = lastSegment p :=
  parts_join (parentOf_ne_nil p) h (slash_not_mem_lastSegment p)

/-- The parts of a path without a name form the root. -/
theorem join_parts_of_slashes {p : Path} (h : Slashes p) :
    join (parentOf p) (lastSegment p) = root := by
  rw [h.parentOf, lastSegment_eq_nil_iff.mpr h]
  rfl

/-- A path is canonical when its parts form it again. -/
theorem canonical_iff {p : Path} (hp : p ≠ root) :
    Canonical p ↔ join (parentOf p) (lastSegment p) = p := by
  constructor
  · rintro ⟨d, n, hroot, hn, hslash, rfl⟩
    obtain ⟨hparent, hlast⟩ := parts_append (d := d) hn hslash
    rw [hparent, hlast]
    by_cases hd : d = []
    · rw [if_pos hd, hd, join, if_pos rfl]
      rfl
    · rw [if_neg hd, join, if_neg hroot]
  · intro hjoin
    have hslash := slash_not_mem_lastSegment p
    have hname : lastSegment p ≠ [] := by
      intro hnil
      rw [(lastSegment_eq_nil_iff.mp hnil).parentOf, hnil] at hjoin
      exact hp hjoin.symm
    unfold join at hjoin
    split_ifs at hjoin with hroot
    · exact ⟨[], lastSegment p, (List.cons_ne_nil _ _).symm, hname, hslash, hjoin.symm⟩
    · exact ⟨parentOf p, lastSegment p, hroot, hname, hslash, hjoin.symm⟩

private theorem Canonical.not_slashes {p : Path} (h : Canonical p) : ¬Slashes p := by
  obtain ⟨d, n, -, hn, hslash, rfl⟩ := h
  rw [← lastSegment_eq_nil_iff, (parts_append hn hslash).2]
  exact hn

namespace TmpFs

variable {fs : TmpFs}

/-! ## Names and keys -/

/-- In every listing the names are unique, and each one forms with its directory the
path of a directory or of a readable file, whichever it is listed as. -/
def NamesResolve (fs : TmpFs) : Prop :=
  ∀ d entries, fs.listEntries d = .ok entries → (entries.map Entry.name).Nodup ∧
    ∀ e ∈ entries, match e with
      | .dir n => fs.isDir (join d n) = true
      | .file n => ∃ data, fs.read (join d n) = .ok data

/-- The path that a listed name forms is the key of the very entry that it lists. -/
def NamesDenote (fs : TmpFs) : Prop :=
  ∀ d p e, fs.isDir d → (p, e) ∈ fs.listing d → join d e.name = p

/-- No stored path is listed twice. -/
theorem nodup_keys (h : fs.Exclusive) : (fs.dirs.toList ++ fs.files.keys).Nodup := by
  rw [List.nodup_append]
  refine ⟨?_, Std.TreeMap.nodup_keys, ?_⟩
  · refine Std.TreeSet.distinct_toList.imp ?_
    intro p q hne heq
    exact hne (Std.compare_eq_iff_eq.mpr heq)
  · rintro p hp q hq rfl
    rw [Std.TreeSet.mem_toList] at hp
    rw [Std.TreeMap.mem_keys] at hq
    exact h p (isDir_iff.mpr (Or.inr hp)) hq

/-- The names of a listing are the last segments of its keys. -/
theorem listing_names (fs : TmpFs) (d : Path) :
    ((fs.listing d).map Prod.snd).map Entry.name =
      ((fs.dirs.toList ++ fs.files.keys).filter (parentOf · = d)).map lastSegment := by
  have hnames : ∀ (keys : List Path) (entry : Path → Entry),
      (∀ key, (entry key).name = lastSegment key) →
      ((keys.filterMap fun key => if parentOf key = d then some (key, entry key) else none).map
        Prod.snd).map Entry.name = (keys.filter (parentOf · = d)).map lastSegment := by
    intro keys entry hentry
    induction keys with
    | nil => rfl
    | cons key keys ih =>
      by_cases hkey : parentOf key = d
      · simp only [List.filterMap_cons, List.filter_cons, hkey, if_true, decide_true, List.map_cons,
          hentry, ih]
      · simp only [List.filterMap_cons, List.filter_cons, hkey, if_false, decide_false,
          Bool.false_eq_true, ih]
  rw [listing, List.map_append, List.map_append, List.filter_append, List.map_append,
    hnames _ (fun key => .dir (lastSegment key)) fun _ => rfl,
    hnames _ (fun key => .file (lastSegment key)) fun _ => rfl]

/-- Names are unique when no two keys have the same parts. -/
theorem nodup_names_iff (h : fs.Exclusive) (d : Path) :
    (((fs.listing d).map Prod.snd).map Entry.name).Nodup ↔
      ∀ p q, fs.Stored p → fs.Stored q → parentOf p = d → parentOf q = d →
        lastSegment p = lastSegment q → p = q := by
  have hmem : ∀ p, p ∈ (fs.dirs.toList ++ fs.files.keys).filter (parentOf · = d) ↔
      fs.Stored p ∧ parentOf p = d := by
    intro p
    rw [List.mem_filter, List.mem_append, Std.TreeSet.mem_toList, Std.TreeMap.mem_keys,
      decide_eq_true_iff]
    rfl
  rw [listing_names, List.nodup_map_iff_inj_on ((nodup_keys h).filter _)]
  simp only [hmem]
  constructor
  · intro hinj p q hp hq hpd hqd
    exact hinj p ⟨hp, hpd⟩ q ⟨hq, hqd⟩
  · rintro hinj p ⟨hp, hpd⟩ q ⟨hq, hqd⟩
    exact hinj p q hp hq hpd hqd

/-- Names are unique and resolve, key by key. -/
theorem namesResolve_iff_keys (htree : fs.IsTree) (hexclusive : fs.Exclusive) :
    fs.NamesResolve ↔
      (∀ p q, fs.Stored p → fs.Stored q → parentOf p = parentOf q →
        lastSegment p = lastSegment q → p = q) ∧
      (∀ p ∈ fs.dirs, fs.isDir (join (parentOf p) (lastSegment p))) ∧
      ∀ p ∈ fs.files, join (parentOf p) (lastSegment p) ∈ fs.files := by
  have hread : ∀ p, (∃ data, fs.read p = .ok data) ↔ p ∈ fs.files := by
    intro p
    simp only [read_eq_ok_iff, mem_files_iff, Option.isSome_iff_exists]
  constructor
  · intro h
    have hlist : ∀ p, fs.Stored p →
        fs.listEntries (parentOf p) = .ok ((fs.listing (parentOf p)).map Prod.snd) := fun p hp => by
      rw [listEntries_eq, if_pos (htree.parent p hp)]
    refine ⟨fun p q hp hq hparent => ?_, fun p hp => ?_, fun p hp => ?_⟩
    · exact (nodup_names_iff hexclusive (parentOf p)).mp (h _ _ (hlist p hp)).1 p q hp hq rfl
        hparent.symm
    · refine (h _ _ (hlist p (Or.inl hp))).2 (.dir (lastSegment p)) ?_
      exact List.mem_map_of_mem (f := Prod.snd) (mem_listing.mpr ⟨rfl, Or.inl ⟨hp, rfl⟩⟩)
    · refine (hread _).mp ((h _ _ (hlist p (Or.inr hp))).2 (.file (lastSegment p)) ?_)
      exact List.mem_map_of_mem (f := Prod.snd) (mem_listing.mpr ⟨rfl, Or.inr ⟨hp, rfl⟩⟩)
  · rintro ⟨hunique, hdirs, hfiles⟩ d entries hentries
    rw [listEntries_eq] at hentries
    split_ifs at hentries with hdir
    obtain rfl := Except.ok.inj hentries
    refine ⟨(nodup_names_iff hexclusive d).mpr fun p q hp hq hpd hqd => ?_, fun e he => ?_⟩
    · exact hunique p q hp hq (hpd.trans hqd.symm)
    · obtain ⟨⟨p, e'⟩, hmem, rfl⟩ := List.mem_map.mp he
      obtain ⟨rfl, ⟨hp, rfl⟩ | ⟨hp, rfl⟩⟩ := mem_listing.mp hmem
      · exact hdirs p hp
      · exact (hread _).mpr (hfiles p hp)

/-! ## States made by `mkdir` and `touch` -/

/-- The root is not stored. -/
theorem root_not_mem_dirs (ops : List Op) : root ∉ (after ops).dirs := by
  refine List.foldlRecOn (motive := fun fs : TmpFs => root ∉ fs.dirs) ops _
    Std.TreeSet.not_mem_emptyc fun fs hroot op _ => ?_
  obtain ⟨hsame, -⟩ | ⟨path, -, hdir, -, -, happly⟩ | ⟨path, -, -, -, happly⟩ |
    ⟨path, data, -, -, happly⟩ | ⟨path, -, -, happly⟩ := fs.apply_cases op
  · rwa [hsame]
  · rw [happly, mem_insert_dir, not_or]
    refine ⟨?_, hroot⟩
    rintro rfl
    exact hdir isDir_root
  · rwa [happly]
  · rwa [happly]
  · rwa [happly]

private theorem stored_ne_root {ops : List Op} {p : Path} (hp : (after ops).Stored p) :
    p ≠ root := by
  rintro rfl
  exact hp.elim (root_not_mem_dirs ops) (exclusive_after ops root isDir_root)

private theorem canonical_iff_of_stored {ops : List Op} {p : Path} (hp : (after ops).Stored p) :
    Canonical p ↔ join (parentOf p) (lastSegment p) = p :=
  canonical_iff (stored_ne_root hp)

/-- A key with a name is canonical if its parts form a key and determine it. -/
theorem canonical_of_unique {ops : List Op}
    (hunique : ∀ p q, (after ops).Stored p → (after ops).Stored q → parentOf p = parentOf q →
      lastSegment p = lastSegment q → p = q) {p : Path} (hp : (after ops).Stored p)
    (hname : lastSegment p ≠ []) (hjoin : (after ops).Stored (join (parentOf p) (lastSegment p))) :
    Canonical p := by
  obtain ⟨hparent, hlast⟩ := parts_join_parts hname
  exact (canonical_iff_of_stored hp).mpr (hunique _ _ hjoin hp hparent hlast)

/-- Names resolve when keys and parts determine each other. -/
theorem namesResolve_iff {ops : List Op} (htree : (after ops).IsTree) :
    (after ops).NamesResolve ↔
      (∀ p ∈ (after ops).files, Canonical p) ∧
      (∀ p ∈ (after ops).dirs, Canonical p ∨ Slashes p) ∧
      ∀ p ∈ (after ops).dirs, ∀ q ∈ (after ops).dirs, Slashes p → Slashes q → p = q := by
  rw [namesResolve_iff_keys htree (exclusive_after ops)]
  constructor
  · rintro ⟨hunique, hdirs, hfiles⟩
    refine ⟨fun p hp => ?_, fun p hp => ?_, fun p hp q hq hps hqs => ?_⟩
    · refine canonical_of_unique hunique (Or.inr hp) (fun hname => ?_) (Or.inr (hfiles p hp))
      have hroot := hfiles p hp
      rw [join_parts_of_slashes (lastSegment_eq_nil_iff.mp hname)] at hroot
      exact exclusive_after ops root isDir_root hroot
    · by_cases hname : lastSegment p = []
      · exact Or.inr (lastSegment_eq_nil_iff.mp hname)
      · have hne : join (parentOf p) (lastSegment p) ≠ root := by
          intro hroot
          have hlast := (parts_join_parts hname).2
          rw [hroot] at hlast
          exact hname hlast.symm
        exact Or.inl (canonical_of_unique hunique (Or.inl hp) hname
          (Or.inl ((isDir_iff.mp (hdirs p hp)).resolve_left hne)))
    · refine hunique p q (Or.inl hp) (Or.inl hq) (hps.parentOf.trans hqs.parentOf.symm) ?_
      rw [lastSegment_eq_nil_iff.mpr hps, lastSegment_eq_nil_iff.mpr hqs]
  · rintro ⟨hfiles, hdirs, hslashes⟩
    have hdir : ∀ p, (after ops).Stored p → Slashes p → p ∈ (after ops).dirs := fun p hp hps =>
      hp.resolve_right fun hfile => (hfiles p hfile).not_slashes hps
    have hnamed : ∀ p, (after ops).Stored p → ¬Slashes p →
        join (parentOf p) (lastSegment p) = p := fun p hp hps =>
      (canonical_iff_of_stored hp).mp
        (hp.elim (fun h => (hdirs p h).resolve_right hps) (hfiles p))
    refine ⟨fun p q hp hq hparent hlast => ?_, fun p hp => ?_, fun p hp => ?_⟩
    · have hiff : Slashes p ↔ Slashes q := by
        rw [← lastSegment_eq_nil_iff, ← lastSegment_eq_nil_iff, hlast]
      by_cases hps : Slashes p
      · have hqs := hiff.mp hps
        exact hslashes p (hdir p hp hps) q (hdir q hq hqs) hps hqs
      · have hqs := mt hiff.mpr hps
        rw [← hnamed p hp hps, ← hnamed q hq hqs, hparent, hlast]
    · obtain hcan | hps := hdirs p hp
      · rw [(canonical_iff_of_stored (Or.inl hp)).mp hcan]
        exact isDir_iff.mpr (Or.inr hp)
      · rw [join_parts_of_slashes hps]
        exact isDir_root
    · rwa [(canonical_iff_of_stored (Or.inr hp)).mp (hfiles p hp)]

/-- The path that a listed name forms is its key when every stored path is canonical. -/
theorem namesDenote_iff {ops : List Op} (htree : (after ops).IsTree) :
    (after ops).NamesDenote ↔ ∀ p, (after ops).Stored p → Canonical p := by
  constructor
  · intro h p hp
    obtain ⟨e, he⟩ := (lists_iff.mpr ⟨htree.parent p hp, hp, rfl⟩).2
    have hname : e.name = lastSegment p := by
      obtain ⟨-, ⟨-, rfl⟩ | ⟨-, rfl⟩⟩ := mem_listing.mp he
      · rfl
      · rfl
    rw [canonical_iff_of_stored hp, ← hname]
    exact h _ p e (htree.parent p hp) he
  · intro h d p e _ he
    obtain ⟨rfl, ⟨hp, rfl⟩ | ⟨hp, rfl⟩⟩ := mem_listing.mp he
    · exact (canonical_iff_of_stored (Or.inl hp)).mp (h p (Or.inl hp))
    · exact (canonical_iff_of_stored (Or.inr hp)).mp (h p (Or.inr hp))

/-- The calls that the shell offers. -/
def Offered (op : Op) : Prop := (∃ path, op = .mkdir path) ∨ ∃ path, op = .touch path

/-- In a state made by `mkdir` and `touch`, listed names are unique and resolve exactly
if every stored file is canonical, every stored directory is canonical or all slashes,
and at most one is all slashes; they moreover lead back to the very entries exactly if
every stored path is canonical. -/
theorem names_iff (ops : List Op) (hops : ∀ op ∈ ops, Offered op) :
    ((after ops).NamesResolve ↔
      (∀ p ∈ (after ops).files, Canonical p) ∧
      (∀ p ∈ (after ops).dirs, Canonical p ∨ Slashes p) ∧
      ∀ p ∈ (after ops).dirs, ∀ q ∈ (after ops).dirs, Slashes p → Slashes q → p = q) ∧
    ((after ops).NamesResolve ∧ (after ops).NamesDenote ↔
      ∀ p, (after ops).Stored p → Canonical p) := by
  have htree : (after ops).IsTree := by
    refine isTree_after fun done path data hdone => ?_
    have hmem : Op.write path data ∈ ops :=
      hdone.subset (List.mem_append_right done List.mem_cons_self)
    obtain ⟨_, hop⟩ | ⟨_, hop⟩ := hops _ hmem
    · cases hop
    · cases hop
  have hresolve := namesResolve_iff htree
  have hdenote := namesDenote_iff htree
  refine ⟨hresolve, fun h => hdenote.mp h.2, fun h => ⟨hresolve.mpr ⟨?_, ?_, ?_⟩, hdenote.mpr h⟩⟩
  · exact fun p hp => h p (Or.inr hp)
  · exact fun p hp => Or.inl (h p (Or.inl hp))
  · exact fun p hp _ _ hps _ => absurd hps (h p (Or.inl hp)).not_slashes

/-- A file in a directory. -/
theorem names_of_directory :
    (∀ op ∈ [Op.mkdir ['/', 'a'], .touch ['/', 'a', '/', 'b']], Offered op) ∧
      (after [.mkdir ['/', 'a'], .touch ['/', 'a', '/', 'b']]).NamesResolve ∧
      (after [.mkdir ['/', 'a'], .touch ['/', 'a', '/', 'b']]).NamesDenote := by
  have hops : ∀ op ∈ [Op.mkdir ['/', 'a'], .touch ['/', 'a', '/', 'b']], Offered op := by
    simp [Offered]
  have hafter : after [.mkdir ['/', 'a'], .touch ['/', 'a', '/', 'b']] =
      ⟨(∅ : Std.TreeMap Path (List UInt8)).insertIfNew ['/', 'a', '/', 'b'] [],
        (∅ : Std.TreeSet Path).insert ['/', 'a']⟩ := by rfl
  refine ⟨hops, (names_iff _ hops).2.mpr fun p hp => ?_⟩
  rw [hafter, Stored, mem_insert_dir, mem_insertIfNew_file] at hp
  obtain (rfl | hp) | rfl | hp := hp
  · exact ⟨[], ['a'], by simp [root]⟩
  · exact absurd hp Std.TreeSet.not_mem_emptyc
  · exact ⟨['/', 'a'], ['b'], by simp [root]⟩
  · exact absurd hp Std.TreeMap.not_mem_emptyc

/-- With and without a slash at its end, one name is two directories. -/
theorem names_clash : ¬(after [.mkdir ['/', 'a'], .mkdir ['/', 'a', '/']]).NamesResolve := by
  intro h
  have hlist : (after [.mkdir ['/', 'a'], .mkdir ['/', 'a', '/']]).listEntries root =
      .ok [.dir ['a'], .dir ['a']] := by rfl
  exact absurd (h root _ hlist).1 (by decide)

end TmpFs

end SillOS.Fs

import SillOS.Console.LineEditing
import SillOS.Fs.Tree
import SillOS.Shell.AllocHint

/-!
# What a line can do

The commands fall into a few kinds: one that prints words, one that clears the screen,
two that set a color and then clear it, one that toggles the mirror, two that change
the file system, and those that only print lines or leave the session.
-/

namespace SillOS.Shell

open Fb Words

/-- A text of printable characters. -/
def Plain (text : Text) : Prop := ∀ c ∈ text, Printable c

variable {k : Kernel} {text : Text} {args : List Text}

/-! ## Plain texts -/

/-- The empty text is plain. -/
theorem plain_nil : Plain [] := fun _ h => absurd h List.not_mem_nil

/-- A concatenation is plain when its parts are. -/
theorem plain_append {text text' : Text} : Plain (text ++ text') ↔ Plain text ∧ Plain text' :=
  List.forall_mem_append

/-- The check of a literal, character by character. -/
def plainChars (l : Text) : Bool := l.all fun c => Nat.ble 0x20 c.toNat && Nat.ble c.toNat 0x7e

/-- A literal is plain when its characters are, which evaluates. -/
theorem plain_lit {l : Text} (h : plainChars l = true) : Plain (String.ofList l).toList := by
  rw [String.toList_ofList]
  intro c hc
  have hchar := List.all_eq_true.mp h c hc
  rw [Bool.and_eq_true, Nat.ble_eq, Nat.ble_eq] at hchar
  exact hchar

private theorem plain_digit {c : Char} {d : Nat} (h : Numerals.digitValue c = some d) :
    Printable c := by
  have hc := Numerals.toNat_of_digitValue h
  exact ⟨by omega, by omega⟩

/-- Printed numbers are plain. -/
theorem plain_decimal (n : Nat) : Plain (decimal n) := by
  intro c hc
  obtain ⟨d, -, hd⟩ := Numerals.digitValue_of_mem_toDigits (by decide) (by decide) hc
  exact plain_digit hd

/-- Printed pointers are plain. -/
theorem plain_hexadecimal (n : Nat) : Plain (hexadecimal n) := by
  refine plain_append.mpr ⟨plain_lit rfl, fun c hc => ?_⟩
  obtain ⟨d, -, hd⟩ := Numerals.digitValue_of_mem_toDigits (by decide) (by decide) hc
  exact plain_digit hd

/-- The words of a plain text are plain. -/
theorem plain_word (h : Plain text) {word : Text} (hword : word ∈ splitWhitespace text) :
    Plain word := fun c hc => h c ((mem_words hword).2 c hc).1

/-! ## Paths -/

/-- Every stored path is plain. -/
def PlainPaths (fs : Fs.TmpFs) : Prop := ∀ p, fs.Stored p → Plain p

private theorem plain_lastSegment {path : Fs.Path} (h : Plain path) :
    Plain (Fs.lastSegment path) := by
  intro c hc
  have htrimmed := (List.rtakeWhile_suffix _ _).subset hc
  exact h c ((List.rdropWhile_prefix _ _).subset htrimmed)

private theorem plain_listEntries {fs : Fs.TmpFs} {path : Fs.Path} {entries : List Fs.Entry}
    (hfs : PlainPaths fs) (h : fs.listEntries path = .ok entries) {entry : Fs.Entry}
    (hentry : entry ∈ entries) : Plain entry.name := by
  rw [Fs.TmpFs.listEntries_eq] at h
  split_ifs at h
  cases h
  obtain ⟨⟨p, e⟩, hmem, rfl⟩ := List.mem_map.mp hentry
  obtain ⟨-, hstored⟩ := Fs.TmpFs.mem_listing.mp hmem
  cases hstored with
  | inl hdir =>
    rw [hdir.2]
    exact plain_lastSegment (hfs p (Or.inl hdir.1))
  | inr hfile =>
    rw [hfile.2]
    exact plain_lastSegment (hfs p (Or.inr hfile.1))

/-! ## Lines -/

/-- An effect of the commands that only print lines or leave the session. -/
def Reports (P : Text → Prop) : Effect → Prop
  | .println _ text => P text
  | .alloc _ _ | .dealloc _ _ | .memAnalyze | .panic | .breakpoint | .reboot | .exitQemu _ => True
  | _ => False

private theorem reports_line {P : Text → Prop} {color : Option Color} {text : Text} (h : P text) :
    ∀ e ∈ [Effect.println color text], Reports P e := List.forall_mem_singleton.mpr h

private theorem reports_lines {P : Text → Prop} {text text' : Text} (h : P text) (h' : P text') :
    ∀ e ∈ [line text, line text'], Reports P e :=
  List.forall_mem_cons.mpr ⟨h, reports_line h'⟩

section Lines

variable (hargs : ∀ w ∈ args, Plain w)

private theorem reports_help : ∀ e ∈ help, Reports Plain e := by
  simp only [help, List.forall_mem_map, List.forall_mem_cons]
  repeat' apply And.intro
  all_goals first | exact plain_lit rfl | exact List.forall_mem_nil _

private theorem reports_info : ∀ e ∈ info k, Reports Plain e := by
  have hsize : Plain
      ("Framebuffer: ".toList ++ decimal k.width ++ "x".toList ++ decimal k.height) := by
    simp only [plain_append]
    exact ⟨⟨⟨plain_lit rfl, plain_decimal _⟩, plain_lit rfl⟩, plain_decimal _⟩
  unfold info
  refine List.forall_mem_cons.mpr ⟨?_, List.forall_mem_cons.mpr ⟨?_, reports_lines ?_ hsize⟩⟩
  · exact (plain_lit rfl : Plain "SillOS".toList)
  · exact (plain_lit rfl : Plain "Architecture: x86_64".toList)
  · exact (plain_lit rfl : Plain "Bootloader: Limine".toList)

private theorem reports_sven : ∀ e ∈ sven, Reports Plain e := by
  change ∀ e ∈ [line _, line _] ++ [Effect.reboot], Reports Plain e
  refine List.forall_mem_append.mpr ⟨?_, List.forall_mem_singleton.mpr trivial⟩
  exact reports_lines (plain_lit rfl) (plain_lit rfl)

private theorem reports_shutdown : ∀ e ∈ shutdown, Reports Plain e := by
  change ∀ e ∈ [line _, line _] ++ [Effect.exitQemu true], Reports Plain e
  refine List.forall_mem_append.mpr ⟨?_, List.forall_mem_singleton.mpr trivial⟩
  exact reports_lines (plain_lit rfl) (plain_lit rfl)

include hargs

private theorem reports_ls (hfs : PlainPaths k.fs) : ∀ e ∈ ls k args, Reports Plain e := by
  have hpath : Plain (args.head?.getD "/".toList) := by
    cases args with
    | nil => exact plain_lit rfl
    | cons path args => exact hargs path List.mem_cons_self
  unfold ls
  dsimp only
  cases hlist : k.fs.listEntries (args.head?.getD "/".toList) with
  | error _ =>
    refine reports_line ?_
    simp only [plain_append]
    exact ⟨⟨plain_lit rfl, hpath⟩, plain_lit rfl⟩
  | ok entries =>
    intro e he
    obtain ⟨entry, hentry, rfl⟩ := List.mem_map.mp he
    have hname := plain_listEntries hfs hlist (List.mem_mergeSort.mp hentry)
    cases entry with
    | file name => exact hname
    | dir name => exact plain_append.mpr ⟨hname, plain_lit rfl⟩

private theorem parseAlign_error {alignStr : Text} (h : parseAlign args = .error alignStr) :
    Plain alignStr := by
  cases args with
  | nil => cases h
  | cons word args =>
    have hword := hargs word List.mem_cons_self
    unfold parseAlign at h
    dsimp only at h
    split at h
    · split_ifs at h
      cases h
      exact hword
    · cases h
      exact hword

omit hargs in
private theorem reports_invalidLayout (size align : Nat) :
    ∀ e ∈ [invalidLayout size align], Reports Plain e := by
  refine reports_line ?_
  simp only [plain_append]
  exact ⟨⟨⟨plain_lit rfl, plain_decimal _⟩, plain_lit rfl⟩, plain_decimal _⟩

private theorem reports_allocCmd : ∀ e ∈ allocCmd k args, Reports Plain e := by
  cases args with
  | nil => exact reports_lines (plain_lit rfl) (plain_lit rfl)
  | cons sizeStr args =>
    obtain ⟨hsizeStr, hargs⟩ := List.forall_mem_cons.mp hargs
    unfold allocCmd
    cases hsize : parseUsize 10 sizeStr with
    | none =>
      simp only [hsize]
      exact reports_line (plain_append.mpr ⟨plain_lit rfl, hsizeStr⟩)
    | some size =>
      by_cases hzero : size = 0
      · simp only [hsize, if_pos hzero]
        exact reports_line (plain_lit rfl)
      simp only [hsize, if_neg hzero]
      cases halign : parseAlign args with
      | error alignStr =>
        have hword := parseAlign_error hargs halign
        refine reports_line (plain_append.mpr ⟨?_, plain_lit rfl⟩)
        exact plain_append.mpr ⟨plain_lit rfl, hword⟩
      | ok align =>
        cases hlayout : Layout.fromSizeAlign size align with
        | none =>
          simp only [hlayout]
          exact reports_invalidLayout size align
        | some layout =>
          simp only [hlayout]
          split_ifs
          · exact List.forall_mem_cons.mpr ⟨trivial, reports_line (plain_lit rfl)⟩
          · refine List.forall_mem_cons.mpr ⟨trivial, ?_⟩
            refine List.forall_mem_cons.mpr ⟨?_, reports_line ?_⟩
            · simp only [Reports, plain_append]
              exact ⟨⟨⟨⟨⟨plain_lit rfl, plain_decimal _⟩, plain_lit rfl⟩, plain_decimal _⟩,
                plain_lit rfl⟩, plain_hexadecimal _⟩
            · simp only [plain_append]
              exact ⟨⟨⟨⟨⟨plain_lit rfl, plain_hexadecimal _⟩, plain_lit rfl⟩, plain_decimal _⟩,
                plain_lit rfl⟩, plain_decimal _⟩

private theorem reports_deallocCmd : ∀ e ∈ deallocCmd args, Reports Plain e := by
  unfold deallocCmd
  split
  · rename_i ptrStr sizeStr args
    obtain ⟨hptrStr, hargs⟩ := List.forall_mem_cons.mp hargs
    obtain ⟨hsizeStr, hargs⟩ := List.forall_mem_cons.mp hargs
    dsimp only
    split
    · exact reports_line (plain_append.mpr ⟨plain_lit rfl, hptrStr⟩)
    split
    · exact reports_line (plain_append.mpr ⟨plain_lit rfl, hsizeStr⟩)
    split
    · have hword := parseAlign_error hargs ‹_›
      exact reports_line (plain_append.mpr ⟨plain_append.mpr ⟨plain_lit rfl, hword⟩, plain_lit rfl⟩)
    split
    · exact reports_invalidLayout _ _
    split
    · exact reports_line (plain_lit rfl)
    · refine List.forall_mem_cons.mpr ⟨trivial, reports_line ?_⟩
      exact plain_append.mpr ⟨(plain_lit rfl : Plain "Deallocated ".toList), plain_hexadecimal _⟩
  · exact reports_lines (plain_lit rfl) (plain_lit rfl)

omit hargs in
/-- `mkdir` prints lines only. -/
theorem reports_mkdir {path : Text} (hpath : Plain path) :
    ∀ e ∈ (mkdir k [path]).1, Reports Plain e := by
  unfold mkdir
  dsimp only
  split
  · exact List.forall_mem_nil _
  · exact reports_line (plain_append.mpr ⟨plain_append.mpr ⟨plain_lit rfl, hpath⟩, plain_lit rfl⟩)

omit hargs in
/-- So does `touch`. -/
theorem reports_touch {path : Text} (hpath : Plain path) :
    ∀ e ∈ (touch k [path]).1, Reports Plain e := by
  unfold touch
  dsimp only
  split
  · exact List.forall_mem_nil _
  · exact reports_line (plain_append.mpr ⟨plain_append.mpr ⟨plain_lit rfl, hpath⟩, plain_lit rfl⟩)

omit hargs in
/-- What `echo` prints before it ends its line. -/
theorem mem_echo {words : List Text} {e : Effect}
    (h : e ∈ (words.map Effect.print).intersperse (.print " ".toList)) :
    (∃ w ∈ words, e = .print w) ∨ e = .print " ".toList := by
  induction words with
  | nil => cases h
  | cons w words ih =>
    have hcons : e = .print w ∨ e = .print " ".toList ∨
        e ∈ (words.map Effect.print).intersperse (.print " ".toList) := by
      cases words with
      | nil => exact Or.inl (List.mem_singleton.mp h)
      | cons v words => simpa using h
    obtain rfl | rfl | hrest := hcons
    · exact Or.inl ⟨w, List.mem_cons_self, rfl⟩
    · exact Or.inr rfl
    · refine (ih hrest).imp_left ?_
      rintro ⟨v, hv, rfl⟩
      exact ⟨v, List.mem_cons_of_mem w hv, rfl⟩

end Lines

/-! ## Kinds of commands -/

/-- The background color that a line sets. -/
def backgroundOf (text : Text) : Option Color :=
  match splitWhitespace text with
  | command :: colorName :: _ =>
    if String.ofList command = "setbg" then Color.fromName (String.ofList colorName) else none
  | _ => none

/-- What a line can do: its effects and the kernel that it leaves. -/
inductive Conduct (k : Kernel) (text : Text) : List Effect × Kernel → Prop where
  /-- The line prints lines or leaves the session. -/
  | reports {effects : List Effect}
    (h : Plain text → PlainPaths k.fs → ∀ e ∈ effects, Reports Plain e) :
    Conduct k text (effects, k)
  | echo {args : List Text} (h : ∀ w ∈ args, w ∈ splitWhitespace text) :
    Conduct k text (echo args, k)
  | clear : Conduct k text (clearterm, k)
  | foreground (color : Color) : Conduct k text ([.setForeground color, .clear], k)
  | background {color : Color} (h : backgroundOf text = some color) :
    Conduct k text ([.setBackground color, .clear], k)
  | toggle : Conduct k text (toggleSerial k)
  | mkdir {path : Text} (h : path ∈ splitWhitespace text) : Conduct k text (mkdir k [path])
  | touch {path : Text} (h : path ∈ splitWhitespace text) : Conduct k text (touch k [path])

/-- Both color commands print a line or set the color. -/
theorem setColor_cases (name : Text) (hname : Plain name) (set : Color → Effect)
    (args : List Text) :
    ((∀ w ∈ args, Plain w) → ∀ e ∈ setColor name set args, Reports Plain e) ∨
      ∃ colorName rest color, args = colorName :: rest ∧
        Color.fromName (String.ofList colorName) = some color ∧
          setColor name set args = [set color, .clear] := by
  cases args with
  | nil =>
    refine Or.inl fun _ => reports_lines (plain_lit rfl) ?_
    exact plain_append.mpr ⟨plain_append.mpr ⟨plain_lit rfl, hname⟩, plain_lit rfl⟩
  | cons colorName rest =>
    simp only [setColor]
    cases hcolor : Color.fromName (String.ofList colorName) with
    | none =>
      refine Or.inl fun hargs => reports_line ?_
      exact plain_append.mpr ⟨plain_lit rfl, hargs colorName List.mem_cons_self⟩
    | some color => exact Or.inr ⟨colorName, rest, color, rfl, hcolor, rfl⟩

/-- Every line is of one of these kinds. -/
theorem execute_conduct (k : Kernel) (text : Text) : Conduct k text (execute k text) := by
  unfold execute
  cases hwords : splitWhitespace text with
  | nil => exact .reports fun _ _ => List.forall_mem_nil _
  | cons command parts =>
    have hparts : ∀ w ∈ parts, w ∈ splitWhitespace text := fun w hw =>
      hwords ▸ List.mem_cons_of_mem command hw
    have hplain : Plain text → ∀ w ∈ parts, Plain w := fun h w hw => plain_word h (hparts w hw)
    have hcommand : Plain text → Plain command := fun h =>
      plain_word h (hwords ▸ List.mem_cons_self)
    dsimp only
    split
    case h_1 => exact .reports fun _ _ => reports_help
    case h_2 => exact .clear
    case h_3 => exact .echo hparts
    case h_4 => exact .reports fun _ _ => reports_info
    case h_5 => exact .reports fun _ _ => List.forall_mem_singleton.mpr trivial
    case h_6 => exact .reports fun _ _ => List.forall_mem_singleton.mpr trivial
    case h_7 => exact .reports fun _ _ => reports_sven
    case h_8 => exact .reports fun _ _ => List.forall_mem_singleton.mpr trivial
    case h_9 => exact .reports fun _ _ => reports_shutdown
    case h_10 => exact .reports fun _ _ => reports_shutdown
    case h_11 heq =>
      obtain hlines | ⟨colorName, rest, color, rfl, hcolor, hset⟩ :=
        setColor_cases "setbg".toList (plain_lit rfl) Effect.setBackground parts
      · exact .reports fun h _ => hlines (hplain h)
      · rw [setbg, hset]
        refine .background ?_
        rw [backgroundOf, hwords]
        exact (if_pos heq).trans hcolor
    case h_12 =>
      obtain hlines | ⟨-, -, color, -, -, hset⟩ :=
        setColor_cases "setfg".toList (plain_lit rfl) Effect.setForeground parts
      · exact .reports fun h _ => hlines (hplain h)
      · rw [setfg, hset]
        exact .foreground color
    case h_13 => exact .reports fun _ _ => List.forall_mem_singleton.mpr trivial
    case h_14 => exact .toggle
    case h_15 => exact .reports fun h _ => reports_allocCmd (hplain h)
    case h_16 => exact .reports fun h _ => reports_deallocCmd (hplain h)
    case h_17 => exact .reports fun h hfs => reports_ls (hplain h) hfs
    case h_18 =>
      cases parts with
      | nil => exact .reports fun _ _ => reports_line (plain_lit rfl)
      | cons path rest => exact .mkdir (hparts path List.mem_cons_self)
    case h_19 =>
      cases parts with
      | nil => exact .reports fun _ _ => reports_line (plain_lit rfl)
      | cons path rest => exact .touch (hparts path List.mem_cons_self)
    case h_20 =>
      refine .reports fun h _ => reports_lines ?_ (plain_lit rfl)
      exact plain_append.mpr ⟨plain_lit rfl, hcommand h⟩

/-! ## Printed texts -/

/-- The text of an effect that has one. -/
def Effect.Prints (P : Text → Prop) : Effect → Prop
  | .print text => P text
  | .println _ text => P text
  | _ => True

/-- What reports prints what it reports. -/
theorem Reports.prints {P : Text → Prop} {e : Effect} (h : Reports P e) : e.Prints P := by
  cases e with
  | println color text => exact h
  | print => exact h.elim
  | _ => trivial

/-- All that a plain line prints by itself is plain. -/
theorem execute_prints (h : Plain text) (hfs : PlainPaths k.fs) :
    ∀ e ∈ (execute k text).1, e.Prints Plain := by
  generalize hrun : execute k text = run
  cases hrun ▸ execute_conduct k text with
  | reports hlines => exact fun e he => (hlines h hfs e he).prints
  | echo hargs =>
    refine List.forall_mem_append.mpr ⟨fun e he => ?_, List.forall_mem_singleton.mpr plain_nil⟩
    obtain ⟨w, hw, rfl⟩ | rfl := mem_echo he
    · exact plain_word h (hargs w hw)
    · exact (plain_lit rfl : Plain " ".toList)
  | clear | foreground | background =>
    exact List.forall_mem_cons.mpr ⟨trivial, List.forall_mem_singleton.mpr trivial⟩
  | toggle =>
    refine List.forall_mem_cons.mpr ⟨trivial, List.forall_mem_singleton.mpr ?_⟩
    exact (plain_lit rfl : Plain "Toggled serial mirroring".toList)
  | mkdir hpath => exact fun e he => (reports_mkdir (plain_word h hpath) e he).prints
  | touch hpath => exact fun e he => (reports_touch (plain_word h hpath) e he).prints

/-! ## Colors and files -/

/-- A background color is set by its command alone, which then clears the screen. -/
theorem execute_setBackground (h : Plain text) (hfs : PlainPaths k.fs) {color : Color}
    (hset : .setBackground color ∈ (execute k text).1) :
    backgroundOf text = some color ∧ (execute k text).1 = [.setBackground color, .clear] := by
  generalize hrun : execute k text = run at hset ⊢
  cases hrun ▸ execute_conduct k text with
  | reports hlines => exact (hlines h hfs _ hset).elim
  | echo _ =>
    obtain hprint | hline := List.mem_append.mp hset
    · obtain ⟨w, -, heq⟩ | heq := mem_echo hprint
      · cases heq
      · cases heq
    · cases List.mem_singleton.mp hline
  | clear => simp [clearterm] at hset
  | foreground _ => simp at hset
  | background hcolor =>
    simp only [List.mem_cons, Effect.setBackground.injEq, reduceCtorEq, List.not_mem_nil,
      or_false] at hset
    rw [hset]
    exact ⟨hcolor, rfl⟩
  | toggle => simp [toggleSerial] at hset
  | mkdir hpath => exact (reports_mkdir (plain_word h hpath) _ hset).elim
  | touch hpath => exact (reports_touch (plain_word h hpath) _ hset).elim

/-- The call on the file system that a line makes. -/
def fileOp (text : Text) : Option Fs.TmpFs.Op :=
  match splitWhitespace text with
  | command :: path :: _ =>
    if String.ofList command = "mkdir" then some (.mkdir path)
    else if String.ofList command = "touch" then some (.touch path)
    else none
  | _ => none

private theorem mkdir_fs (k : Kernel) (path : Text) (rest : List Text) :
    (mkdir k (path :: rest)).2.fs = (k.fs.mkdir path).1 := by
  simp only [mkdir]
  split <;> simp only [*]

private theorem touch_fs (k : Kernel) (path : Text) (rest : List Text) :
    (touch k (path :: rest)).2.fs = (k.fs.touch path).1 := by
  simp only [touch]
  split <;> simp only [*]

/-- A line changes the file system by its call, if it makes one. -/
theorem execute_fs (k : Kernel) (text : Text) :
    (execute k text).2.fs = match fileOp text with
      | some op => (k.fs.apply op).1
      | none => k.fs := by
  unfold execute fileOp
  cases hwords : splitWhitespace text with
  | nil => rfl
  | cons command parts =>
    cases parts with
    | nil =>
      dsimp only
      split <;> rfl
    | cons path rest =>
      dsimp only
      split
      case h_18 heq => simp only [heq, if_true, mkdir_fs, Fs.TmpFs.apply]
      case h_19 heq => simp [heq, touch_fs, Fs.TmpFs.apply]
      all_goals simp_all [toggleSerial]

end SillOS.Shell

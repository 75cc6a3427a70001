import SillOS.Console.Cells

/-!
# Line editing

The input line is meant to be a stack of bytes that keys push and pop. The console
lets a key pop only while the cursor is to the right of the prompt's columns. The
cursor column is the length of prompt and line modulo the width, so on a line that
has wrapped the guard also rejects keys that should pop.
-/

namespace SillOS

open Fb

/-! ## The stack -/

/-- A key that pops. -/
def Erases (key : Char) : Prop := key.toNat = 8 ∨ key.toNat = 0x7f

/-- A key that pushes its byte. -/
def Printable (key : Char) : Prop := 0x20 ≤ key.toNat ∧ key.toNat ≤ 0x7e

instance (key : Char) : Decidable (Erases key) := inferInstanceAs (Decidable (_ ∨ _))

instance (key : Char) : Decidable (Printable key) := inferInstanceAs (Decidable (_ ∧ _))

/-- The effect of a key on a stack of bounded capacity, its top at the end. -/
def typed (stack : List UInt8) (key : Char) : List UInt8 :=
  if Erases key then stack.dropLast
  else if Printable key ∧ stack.length < inputSize then stack ++ [UInt8.ofNat key.toNat]
  else stack

/-- The effect of a key on the input line of a console with the given width. -/
def edit (columns : Nat) (line : List UInt8) (key : Char) : List UInt8 :=
  if Erases key ∧ ¬2 < (2 + line.length) % columns then line else typed line key

/-- Every key that pops from a nonempty stack is typed right of the prompt's columns. -/
def ErasesRight (columns : Nat) (keys : List Char) : Prop :=
  ∀ done key, done ++ [key] <+: keys → Erases key → done.foldl typed [] ≠ [] →
    2 < (2 + (done.foldl typed []).length) % columns

section Edits

variable {columns : Nat} {line stack : List UInt8} {keys : List Char} {key : Char}

/-- The condition on the last key. -/
theorem erasesRight_concat :
    ErasesRight columns (keys ++ [key]) ↔ ErasesRight columns keys ∧
      (Erases key → keys.foldl typed [] ≠ [] →
        2 < (2 + (keys.foldl typed []).length) % columns) := by
  constructor
  · intro h
    exact ⟨fun done k hdone => h done k (hdone.trans (List.prefix_append keys [key])),
      h keys key List.prefix_rfl⟩
  · rintro ⟨hkeys, hlast⟩ done k hdone
    rw [List.prefix_concat_iff] at hdone
    cases hdone with
    | inl heq =>
      obtain ⟨rfl, hk⟩ := List.append_inj' heq rfl
      obtain rfl := List.singleton_inj.mp hk
      exact hlast
    | inr hdone => exact hkeys done k hdone

/-- The condition holds of a part of the keys. -/
theorem ErasesRight.mono {done : List Char} (h : ErasesRight columns keys)
    (hdone : done <+: keys) : ErasesRight columns done :=
  fun before key hkey => h before key (hkey.trans hdone)

/-- Without a rejected key, the console edits like the stack. -/
theorem edit_eq_typed
    (h : Erases key → line ≠ [] → 2 < (2 + line.length) % columns) :
    edit columns line key = typed line key := by
  unfold edit
  split_ifs with hrejected
  · obtain ⟨herase, hleft⟩ := hrejected
    have hempty : line = [] := by
      by_contra hne
      exact hleft (h herase hne)
    rw [hempty, typed, if_pos herase]
    rfl
  · rfl

private theorem foldl_edit_eq (h : ErasesRight columns keys) :
    keys.foldl (edit columns) [] = keys.foldl typed [] := by
  induction keys using List.reverseRecOn with
  | nil => rfl
  | append_singleton keys key ih =>
    obtain ⟨hkeys, hlast⟩ := erasesRight_concat.mp h
    rw [List.foldl_append, List.foldl_append, ih hkeys]
    exact edit_eq_typed hlast

/-- A line that has outgrown the stack, with a position that no key can erase. -/
def Stuck (columns : Nat) (line stack : List UInt8) : Prop :=
  stack.length < line.length ∧ ∃ floor, 1 ≤ floor ∧ floor ≤ line.length ∧ (2 + floor) % columns ≤ 2

/-- A rejected key leaves the line longer than the stack. -/
theorem stuck_of_rejected (herase : Erases key) (hne : line ≠ [])
    (hleft : ¬2 < (2 + line.length) % columns) :
    Stuck columns (edit columns line key) (typed line key) := by
  have hpos := List.length_pos_iff.mpr hne
  rw [edit, if_pos ⟨herase, hleft⟩, typed, if_pos herase]
  refine ⟨?_, line.length, hpos, Nat.le_refl _, Nat.le_of_not_lt hleft⟩
  rw [List.length_dropLast]
  omega

/-- A rejected key shows at once. -/
theorem erasesRight_of_foldl_eq
    (h : ∀ done, done <+: keys → done.foldl (edit columns) [] = done.foldl typed []) :
    ErasesRight columns keys := by
  induction keys using List.reverseRecOn with
  | nil =>
    intro done key hdone
    simp at hdone
  | append_singleton keys key ih =>
    have hkeys := h keys (List.prefix_append keys [key])
    have hlast : edit columns (keys.foldl typed []) key = typed (keys.foldl typed []) key := by
      simpa only [List.foldl_append, List.foldl_cons, List.foldl_nil, hkeys] using
        h _ List.prefix_rfl
    refine erasesRight_concat.mpr
      ⟨ih fun done hdone => h done (hdone.trans (List.prefix_append keys [key])), ?_⟩
    intro herase hne
    by_contra hleft
    have hstuck := (stuck_of_rejected herase hne hleft).1
    rw [hlast] at hstuck
    exact Nat.lt_irrefl _ hstuck

/-- As long as the line has room, it stays ahead of the stack. -/
theorem Stuck.edit (h : Stuck columns line stack) (hroom : line.length < inputSize) (key : Char) :
    Stuck columns (edit columns line key) (typed stack key) := by
  obtain ⟨hlt, floor, hpos, hle, hfloor⟩ := h
  unfold SillOS.edit typed
  by_cases herase : Erases key
  · by_cases hleft : 2 < (2 + line.length) % columns
    · -- The line is erased, but it was above the floor.
      have hne : line.length ≠ floor := by
        rintro heq
        rw [heq] at hleft
        omega
      simp only [herase, hleft, not_true_eq_false, and_false, if_true, if_false]
      refine ⟨?_, floor, hpos, ?_, hfloor⟩
      · simp only [List.length_dropLast]
        omega
      · simp only [List.length_dropLast]
        omega
    · simp only [herase, hleft, not_false_eq_true, and_self, if_true]
      refine ⟨?_, floor, hpos, hle, hfloor⟩
      simp only [List.length_dropLast]
      omega
  · simp only [herase, false_and, if_false]
    by_cases hprint : Printable key
    · have hroom' : stack.length < inputSize := Nat.lt_trans hlt hroom
      simp only [hprint, hroom, hroom', and_self, if_true]
      refine ⟨?_, floor, hpos, ?_, hfloor⟩
      · simp only [List.length_append, List.length_singleton]
        omega
      · simp only [List.length_append, List.length_singleton]
        omega
    · simp only [hprint, false_and, if_false]
      exact ⟨hlt, floor, hpos, hle, hfloor⟩

/-- A key adds at most one byte. -/
theorem length_edit_le (columns : Nat) (line : List UInt8) (key : Char) :
    (edit columns line key).length ≤ line.length + 1 := by
  unfold edit typed
  split_ifs
  · omega
  · rw [List.length_dropLast]
    omega
  · rw [List.length_append, List.length_singleton]
  · omega

private theorem length_foldl_edit_le (columns : Nat) (keys : List Char) :
    (keys.foldl (edit columns) []).length ≤ keys.length := by
  induction keys using List.reverseRecOn with
  | nil => exact Nat.le_refl 0
  | append_singleton keys key ih =>
    have hkey := length_edit_le columns (keys.foldl (edit columns) []) key
    rw [List.foldl_append, List.length_append, List.length_singleton]
    exact Nat.le_trans hkey (Nat.add_le_add_right ih 1)

/-- After a rejected key, a line that never fills up is never right again. -/
theorem stuck_of_not_erasesRight (h : ¬ErasesRight columns keys) (hlen : keys.length ≤ inputSize) :
    Stuck columns (keys.foldl (edit columns) []) (keys.foldl typed []) := by
  induction keys using List.reverseRecOn with
  | nil =>
    refine absurd ?_ h
    intro done key hdone
    simp at hdone
  | append_singleton keys key ih =>
    rw [List.length_append, List.length_singleton] at hlen
    rw [List.foldl_append, List.foldl_append]
    by_cases hkeys : ErasesRight columns keys
    · rw [erasesRight_concat, not_and] at h
      have hlast := h hkeys
      simp only [Classical.not_imp] at hlast
      obtain ⟨herase, hne, hleft⟩ := hlast
      rw [foldl_edit_eq hkeys]
      exact stuck_of_rejected herase hne hleft
    · have hroom := length_foldl_edit_le columns keys
      exact (ih hkeys (by omega)).edit (by omega) key

end Edits

namespace Console

/-- The bytes typed so far. -/
def line (c : Console) : List UInt8 := (List.range c.inputLen).map c.input

/-- The line has the length that the console counts. -/
@[simp] theorem line_length (c : Console) : c.line.length = c.inputLen := by simp [line]

/-- A prompt and the input line are on the screen up to the cursor. -/
structure Editing (c : Console) : Prop where
  columns_le : 3 ≤ c.columns
  rows_pos : c.rows ≠ 0
  inputLen_le : c.inputLen ≤ inputSize
  cursorX : c.cursorX = (2 + c.inputLen) % c.columns

variable {c d : Console}

/-- What keeps the input keeps the line. -/
theorem Keeps.line_eq (h : c.Keeps d) : d.line = c.line := by
  rw [line, line, h.input, h.inputLen]

/-- The next column, modulo the width. -/
theorem succ_mod_cases (n : Nat) {k : Nat} (hk : k ≠ 0) :
    (n % k + 1 < k ∧ (n + 1) % k = n % k + 1) ∨ (k ≤ n % k + 1 ∧ (n + 1) % k = 0) := by
  have hlt := Nat.mod_lt n (Nat.pos_of_ne_zero hk)
  rw [← Nat.mod_add_mod]
  by_cases hedge : n % k + 1 < k
  · exact Or.inl ⟨hedge, Nat.mod_eq_of_lt hedge⟩
  · have hwhole : n % k + 1 = k := by omega
    exact Or.inr ⟨hwhole.ge, by rw [hwhole, Nat.mod_self]⟩

private theorem advance_cursorX {n : Nat} (hcolumns : c.columns ≠ 0)
    (hx : c.cursorX = n % c.columns) :
    c.advance.cursorX = (n + 1) % c.columns := by
  obtain ⟨hedge, hmod⟩ | ⟨hedge, hmod⟩ := succ_mod_cases n hcolumns
  · rw [advance_of_lt (hx ▸ hedge), hmod]
    exact congrArg (· + 1) hx
  · rw [advance_of_le (hx ▸ hedge), newline_cursorX, hmod]

/-- A printed byte moves the cursor to the next column, modulo the width. -/
theorem writeCell_cursorX {n : Nat} (hcolumns : c.columns ≠ 0) (hrows : c.rows ≠ 0)
    (hx : c.cursorX = n % c.columns) (character : UInt8) :
    (c.writeCell character).cursorX = (n + 1) % c.columns := by
  have hlt : c.cursorX < c.columns := hx ▸ Nat.mod_lt n (Nat.pos_of_ne_zero hcolumns)
  rw [writeCell_of_lt hlt hrows]
  exact advance_cursorX (c := c.drawCell _ _ _) hcolumns hx

/-- A printable character is written into its cell. -/
theorem putChar_of_printable (c : Console) (character : UInt8) (hlow : 0x20 ≤ character.toNat)
    (hhigh : character.toNat ≤ 0x7e) : c.putChar character = c.writeCell character := by
  have hne : ∀ control : UInt8, control.toNat < 0x20 → character ≠ control := by
    rintro control hlt rfl
    omega
  have hprint : 0x20 ≤ character ∧ character ≤ 0x7e := ⟨hlow, hhigh⟩
  rw [putChar, if_neg (hne 0x0a (by decide)), if_neg (hne 0x0d (by decide)),
    if_neg (hne 0x09 (by decide)), if_neg (hne 8 (by decide)), if_pos hprint]

/-- Right of the prompt's columns, backspace moves the cursor back by one column. -/
theorem backspace_cursorX (hx : 2 < c.cursorX) : c.backspace.cursorX = c.cursorX - 1 := by
  rw [backspace_eq, if_neg (by omega), if_neg (by omega)]
  rfl

/-- Enter hands on the line. -/
theorem enter_line (h : c.inputLen ≤ inputSize) {key : Char} (hkey : key = '\n' ∨ key = '\r') :
    (c.enter key).2 = some c.line := by
  have hkeeps := c.keeps_putChar 0x0a
  have hmin : min (c.putChar 0x0a).inputLen inputSize = c.inputLen := by
    rw [hkeeps.inputLen]
    exact Nat.min_eq_left h
  simp only [enter, receiveKey, if_pos hkey, readLine, Bool.not_true, Bool.false_eq_true, if_false,
    List.length_replicate, Option.map_some, hmin, hkeeps.input]
  rw [List.take_left' (by rw [List.length_map, List.length_range])]
  rfl

/-! ## Keys -/

/-- The two descriptions of a printable key. -/
private theorem printable_iff (key : Char) :
    Printable key ↔ key.val < 0x80 ∧ ¬(key.val < 0x20 ∨ key.val = 0x7f) := by
  simp only [Printable, Char.toNat, UInt32.lt_iff_toNat_lt, ← UInt32.toNat_inj]
  change _ ↔ key.val.toNat < 0x80 ∧ ¬(key.val.toNat < 0x20 ∨ key.val.toNat = 0x7f)
  omega

private theorem erases_iff (key : Char) : Erases key ↔ key.val = 8 ∨ key.val = 0x7f := by
  simp only [Erases, Char.toNat, ← UInt32.toNat_inj]
  rfl

/-- What a key other than Enter does, by its kind. -/
theorem receiveKey_eq (c : Console) {key : Char} (hkey : key ≠ '\n' ∧ key ≠ '\r') :
    c.receiveKey key =
      if Erases key then
        if c.inputLen > 0 ∧ c.cursorX > 2 then { c with inputLen := c.inputLen - 1 }.putChar 8
        else c
      else if Printable key ∧ c.inputLen < inputSize then
        { c with
          input := Function.update c.input c.inputLen (UInt8.ofNat key.toNat)
          inputLen := c.inputLen + 1 }.putChar (UInt8.ofNat key.toNat)
      else c := by
  have henter : ¬(key = '\n' ∨ key = '\r') := not_or.mpr hkey
  simp only [receiveKey, if_neg henter, ← printable_iff, ← erases_iff, ite_and]
  rfl

/-- The character 8 is a backspace. -/
theorem putChar_backspace (c : Console) : c.putChar 8 = c.backspace := by
  rw [putChar, if_neg (by decide), if_neg (by decide), if_neg (by decide), if_pos rfl]

/-- Dropping the last byte of the input. -/
theorem line_pop (hlen : c.inputLen > 0) :
    { c with inputLen := c.inputLen - 1 }.line = c.line.dropLast := by
  obtain ⟨n, hn⟩ := Nat.exists_eq_succ_of_ne_zero (Nat.ne_of_gt hlen)
  simp only [line, hn, Nat.succ_eq_add_one, Nat.add_sub_cancel, List.range_succ, List.map_append,
    List.map_cons, List.map_nil, List.dropLast_concat]

/-- Adding a byte to the input. -/
theorem line_push (c : Console) (byte : UInt8) :
    { c with
      input := Function.update c.input c.inputLen byte
      inputLen := c.inputLen + 1 }.line = c.line ++ [byte] := by
  simp only [line, List.range_succ, List.map_append, List.map_cons, List.map_nil,
    Function.update_self]
  congr 1
  refine List.map_congr_left fun i hi => ?_
  rw [Function.update_of_ne (Nat.ne_of_lt (List.mem_range.mp hi))]

/-- Output that moves the cursor along with the length of the line. -/
private theorem Keeps.editing (h : c.Keeps d) (hcolumns : 3 ≤ c.columns) (hrows : c.rows ≠ 0)
    (hlen : c.inputLen ≤ inputSize) (hx : d.cursorX = (2 + c.inputLen) % c.columns) :
    d.Editing ∧ d.columns = c.columns ∧ d.line = c.line := by
  refine ⟨⟨?_, ?_, ?_, ?_⟩, h.columns, h.line_eq⟩
  · rw [h.columns]
    exact hcolumns
  · rw [h.rows]
    exact hrows
  · rw [h.inputLen]
    exact hlen
  · rw [h.inputLen, h.columns]
    exact hx

private theorem editing_pop (h : c.Editing) (hlen : c.inputLen > 0) (hx : c.cursorX > 2) :
    let d := { c with inputLen := c.inputLen - 1 }.putChar 8
    d.Editing ∧ d.columns = c.columns ∧ d.line = c.line.dropLast := by
  have hcolumns := h.columns_le
  have hback : (2 + (c.inputLen - 1)) % c.columns = c.cursorX - 1 := by
    have hmod := h.cursorX
    rw [show 2 + c.inputLen = 2 + (c.inputLen - 1) + 1 by omega] at hmod
    obtain ⟨-, hsucc⟩ | ⟨-, hzero⟩ := succ_mod_cases (2 + (c.inputLen - 1)) (k := c.columns)
      (by omega)
    · omega
    · omega
  rw [putChar_backspace, ← line_pop hlen]
  refine (keeps_backspace { c with inputLen := c.inputLen - 1 }).editing hcolumns h.rows_pos
    (Nat.le_trans (Nat.sub_le _ _) h.inputLen_le) ?_
  rw [hback]
  exact backspace_cursorX (c := { c with inputLen := c.inputLen - 1 }) hx

private theorem editing_push (h : c.Editing) (hroom : c.inputLen < inputSize) {byte : UInt8}
    (hlow : 0x20 ≤ byte.toNat) (hhigh : byte.toNat ≤ 0x7e) :
    let d := { c with
      input := Function.update c.input c.inputLen byte
      inputLen := c.inputLen + 1 }.putChar byte
    d.Editing ∧ d.columns = c.columns ∧ d.line = c.line ++ [byte] := by
  have hcolumns := h.columns_le
  rw [putChar_of_printable _ byte hlow hhigh, ← line_push]
  refine (keeps_writeCell _ byte).editing hcolumns h.rows_pos hroom ?_
  exact writeCell_cursorX (c := { c with
    input := Function.update c.input c.inputLen byte
    inputLen := c.inputLen + 1 }) (by dsimp only; omega) h.rows_pos h.cursorX byte

/-- One key: the console's line changes as by `edit`. -/
theorem editing_receiveKey (h : c.Editing) {key : Char} (hkey : key ≠ '\n' ∧ key ≠ '\r') :
    (c.receiveKey key).Editing ∧ (c.receiveKey key).columns = c.columns ∧
      (c.receiveKey key).line = edit c.columns c.line key := by
  have hcolumns := h.columns_le
  have hx := h.cursorX
  rw [receiveKey_eq c hkey, edit, typed, line_length, ← hx]
  by_cases herase : Erases key
  · simp only [herase, true_and]
    by_cases hguard : c.inputLen > 0 ∧ c.cursorX > 2
    · rw [if_pos hguard, if_neg (not_not.mpr hguard.2)]
      exact editing_pop h hguard.1 hguard.2
    · have hblocked : ¬2 < c.cursorX := by
        intro hright
        -- Right after the prompt the cursor is in column 2.
        have hempty : c.inputLen = 0 := by omega
        rw [hempty, Nat.mod_eq_of_lt hcolumns] at hx
        omega
      rw [if_neg hguard, if_pos hblocked]
      exact ⟨h, rfl, rfl⟩
  · simp only [herase, false_and, if_false]
    by_cases hpush : Printable key ∧ c.inputLen < inputSize
    · rw [if_pos hpush, if_pos hpush]
      obtain ⟨⟨hlow, hhigh⟩, hroom⟩ := hpush
      have hbyte : (UInt8.ofNat key.toNat).toNat = key.toNat :=
        Nat.mod_eq_of_lt (Nat.lt_of_le_of_lt hhigh (by decide))
      exact editing_push h hroom (hbyte.symm ▸ hlow) (hbyte.symm ▸ hhigh)
    · rw [if_neg hpush, if_neg hpush]
      exact ⟨h, rfl, rfl⟩

/-- Keys other than Enter. -/
theorem editing_run (h : c.Editing) {keys : List Char}
    (hkeys : ∀ key ∈ keys, key ≠ '\n' ∧ key ≠ '\r') :
    (keys.foldl receiveKey c).Editing ∧
      (keys.foldl receiveKey c).line = keys.foldl (edit c.columns) c.line := by
  have hrun := List.foldl_rel (l := keys) (f := receiveKey) (g := edit c.columns)
    (r := fun (d : Console) line => d.Editing ∧ d.columns = c.columns ∧ d.line = line)
    (a := c) (b := c.line) ⟨h, rfl, rfl⟩ ?_
  · exact ⟨hrun.1, hrun.2.2⟩
  · rintro key hkey d line ⟨hd, hwidth, rfl⟩
    obtain ⟨hd', hwidth', hline⟩ := editing_receiveKey hd (hkeys key hkey)
    exact ⟨hd', hwidth'.trans hwidth, hwidth ▸ hline⟩

/-- The prompt of an empty line. -/
theorem editing_prompt (hcolumns : 3 ≤ c.columns) (hrows : c.rows ≠ 0) (hx : c.cursorX = 0)
    (hinput : c.inputLen = 0) :
    c.prompt.Editing ∧ c.prompt.columns = c.columns ∧ c.prompt.line = [] := by
  have harrow := c.putChar_of_printable 0x3e (by decide) (by decide)
  have hblank := (c.putChar 0x3e).putChar_of_printable 0x20 (by decide) (by decide)
  have hkeeps := (c.keeps_putChar 0x3e).trans ((c.putChar 0x3e).keeps_putChar 0x20)
  have hfirst : (c.putChar 0x3e).cursorX = 1 % c.columns := by
    rw [harrow]
    exact writeCell_cursorX (n := 0) (by omega) hrows (hx.trans (Nat.zero_mod _).symm) 0x3e
  have hcolumns' := (c.keeps_putChar 0x3e).columns
  have hrows' := (c.keeps_putChar 0x3e).rows
  have hsecond : c.prompt.cursorX = 2 % c.columns := by
    rw [prompt, hblank, ← hcolumns']
    exact writeCell_cursorX (by omega) (hrows' ▸ hrows) (hcolumns' ▸ hfirst) 0x20
  have hempty : c.line = [] := by rw [line, hinput]; rfl
  rw [← hempty]
  refine hkeeps.editing hcolumns hrows (hinput ▸ Nat.zero_le _) ?_
  rw [hinput]
  exact hsecond

/-- The line that Enter hands on after some keys. -/
def delivered (c : Console) (keys : List Char) (enterKey : Char) : Option (List UInt8) :=
  ((keys.foldl receiveKey c).enter enterKey).2

/-- From the prompt on, Enter hands on what the keys make of an empty line. -/
theorem delivered_prompt (hcolumns : 3 ≤ c.columns) (hrows : c.rows ≠ 0) (hx : c.cursorX = 0)
    (hinput : c.inputLen = 0) {keys : List Char} (hkeys : ∀ key ∈ keys, key ≠ '\n' ∧ key ≠ '\r')
    {enterKey : Char} (henter : enterKey = '\n' ∨ enterKey = '\r') :
    c.prompt.delivered keys enterKey = some (keys.foldl (edit c.columns) []) := by
  obtain ⟨hprompt, hwidth, hempty⟩ := editing_prompt hcolumns hrows hx hinput
  obtain ⟨hediting, hline⟩ := editing_run hprompt hkeys
  rw [delivered, enter_line hediting.inputLen_le henter, hline, hwidth, hempty]

/-- Enter hands on the contents of the stack, after every part of the keys, if and only if
every key that pops is typed right of the prompt's columns; and as long as the capacity
is not in the way, one rejected key makes the finished line wrong. -/
theorem delivered_iff (c : Console) (hcolumns : 3 ≤ c.columns) (hrows : 1 ≤ c.rows)
    (hx : c.cursorX = 0) (hinput : c.inputLen = 0) (keys : List Char)
    (hkeys : ∀ key ∈ keys, key ≠ '\n' ∧ key ≠ '\r') (enterKey : Char)
    (henter : enterKey = '\n' ∨ enterKey = '\r') :
    ((∀ done, done <+: keys →
        c.prompt.delivered done enterKey = some (done.foldl typed [])) ↔
      ErasesRight c.columns keys) ∧
    (keys.length ≤ inputSize →
      (c.prompt.delivered keys enterKey = some (keys.foldl typed []) ↔
        ErasesRight c.columns keys)) := by
  have hline : ∀ done, done <+: keys →
      c.prompt.delivered done enterKey = some (done.foldl (edit c.columns) []) := by
    intro done hdone
    exact delivered_prompt hcolumns (Nat.ne_of_gt hrows) hx hinput
      (fun key hkey => hkeys key (hdone.subset hkey)) henter
  refine ⟨⟨?_, ?_⟩, fun hlen => ⟨?_, ?_⟩⟩
  · intro hall
    refine erasesRight_of_foldl_eq fun done hdone => ?_
    rw [← Option.some_inj, ← hline done hdone]
    exact hall done hdone
  · intro h done hdone
    rw [hline done hdone, foldl_edit_eq (h.mono hdone)]
  · intro heq
    rw [hline keys List.prefix_rfl, Option.some_inj] at heq
    by_contra h
    have hstuck := (stuck_of_not_erasesRight h hlen).1
    rw [heq] at hstuck
    exact Nat.lt_irrefl _ hstuck
  · intro h
    rw [hline keys List.prefix_rfl, foldl_edit_eq h]

/-- Two letters are delivered as typed. -/
theorem delivered_two_letters :
    (3 ≤ lineConsole.columns ∧ 1 ≤ lineConsole.rows ∧ lineConsole.cursorX = 0 ∧
      lineConsole.inputLen = 0 ∧ ∀ key ∈ ['a', 'b'], key ≠ '\n' ∧ key ≠ '\r') ∧
      lineConsole.prompt.delivered ['a', 'b'] '\n' = some [0x61, 0x62] := by
  have hcolumns : 3 ≤ lineConsole.columns := by rw [lineConsole_columns]
  have hrows : 1 ≤ lineConsole.rows := by rw [lineConsole_rows]
  have hkeys : ∀ key ∈ ['a', 'b'], key ≠ '\n' ∧ key ≠ '\r' := by simp
  have hright : ErasesRight lineConsole.columns ['a', 'b'] := by
    intro done key hdone herase
    have hmem : key ∈ ['a', 'b'] := hdone.subset (List.mem_append_right done List.mem_cons_self)
    have hno : ∀ key ∈ ['a', 'b'], ¬Erases key := by simp [Erases]
    exact absurd herase (hno key hmem)
  have hiff := delivered_iff lineConsole hcolumns hrows rfl rfl ['a', 'b'] hkeys '\n' (Or.inl rfl)
  exact ⟨⟨hcolumns, hrows, rfl, rfl, hkeys⟩, (hiff.2 (by decide)).mpr hright⟩

/-- On three columns, the cursor wraps after the first letter and backspace is rejected. -/
theorem delivered_wrapped :
    (3 ≤ lineConsole.columns ∧ 1 ≤ lineConsole.rows ∧ lineConsole.cursorX = 0 ∧
      lineConsole.inputLen = 0) ∧
      lineConsole.prompt.delivered ['a', Char.ofNat 8] '\n' ≠
        some (['a', Char.ofNat 8].foldl typed []) := by
  have hcolumns : 3 ≤ lineConsole.columns := by rw [lineConsole_columns]
  have hrows : 1 ≤ lineConsole.rows := by rw [lineConsole_rows]
  refine ⟨⟨hcolumns, hrows, rfl, rfl⟩, ?_⟩
  rw [delivered_prompt hcolumns (Nat.ne_of_gt hrows) rfl rfl (by simp) (Or.inl rfl),
    lineConsole_columns]
  decide

end Console

end SillOS

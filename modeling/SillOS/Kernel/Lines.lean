import SillOS.Kernel.Frame
import SillOS.Shell.Effects

/-!
# The lines of a session

The input line holds printable characters only, so every line that Enter hands on is a
text, and every path that a session stores is printable.
-/

namespace SillOS

open Fb Shell

namespace Console

/-- The input line is within its buffer and printable. -/
structure PlainInput (c : Console) : Prop where
  inputLen_le : c.inputLen ≤ inputSize
  printable : ∀ b ∈ c.line, 0x20 ≤ b.toNat ∧ b.toNat ≤ 0x7e

variable {c : Console}

/-- An empty input line is plain. -/
theorem plainInput_empty (h : c.inputLen = 0) : c.PlainInput := by
  have hline : c.line = [] := by
    rw [line, h]
    rfl
  refine ⟨h ▸ Nat.zero_le _, ?_⟩
  rw [hline]
  exact List.forall_mem_nil _

private theorem Keeps.plainInput {d : Console} (h : c.Keeps d) (hc : c.PlainInput) : d.PlainInput :=
  ⟨h.inputLen ▸ hc.inputLen_le, h.line_eq ▸ hc.printable⟩

private theorem plainInput_receiveKey (h : c.PlainInput) (key : Char) :
    (c.receiveKey key).PlainInput := by
  obtain ⟨hlen, hplain⟩ := h
  by_cases hkey : key = '\n' ∨ key = '\r'
  · have hputs := (c.keeps_putChar 0x0a).plainInput ⟨hlen, hplain⟩
    rw [receiveKey, if_pos hkey]
    exact ⟨hputs.inputLen_le, hputs.printable⟩
  rw [receiveKey_eq c (not_or.mp hkey)]
  split_ifs with herase hguard hpush
  · refine (keeps_putChar _ 8).plainInput ⟨Nat.le_trans (Nat.sub_le _ _) hlen, ?_⟩
    rw [line_pop hguard.1]
    exact fun b hb => hplain b (List.mem_of_mem_dropLast hb)
  · exact ⟨hlen, hplain⟩
  · obtain ⟨⟨hlow, hhigh⟩, hroom⟩ := hpush
    have hbyte : (UInt8.ofNat key.toNat).toNat = key.toNat :=
      Nat.mod_eq_of_lt (Nat.lt_of_le_of_lt hhigh (by decide))
    refine (keeps_putChar _ _).plainInput ⟨hroom, ?_⟩
    rw [line_push]
    exact List.forall_mem_append.mpr
      ⟨hplain, List.forall_mem_singleton.mpr (hbyte.symm ▸ ⟨hlow, hhigh⟩)⟩
  · exact ⟨hlen, hplain⟩

private theorem plainInput_readLine (h : c.PlainInput) (buffer : List UInt8) :
    (c.readLine buffer).1.PlainInput := by
  unfold readLine
  dsimp only
  split_ifs
  · exact h
  · exact plainInput_empty rfl

/-- All operations keep the input line plain. -/
theorem plainInput_rule : FrameRule fun c d => c.PlainInput → d.PlainInput where
  refl _ := id
  trans _ _ _ h h' := h' ∘ h
  putChar c character := (c.keeps_putChar character).plainInput
  present _ h := ⟨h.inputLen_le, h.printable⟩
  setForeground _ _ h := ⟨h.inputLen_le, h.printable⟩
  clear _ _ := plainInput_empty rfl
  receiveKey _ key h := plainInput_receiveKey h key
  readLine _ buffer h := plainInput_readLine h buffer

end Console

namespace Session

open Console

/-! ## Lines -/

variable {s : Session} {env : HeapEnv} {key : Char}

/-- The typed line as a text. -/
def lineText (s : Session) : Text := s.console.line.map Char.ofUInt8

/-- The typed line is printable. -/
theorem plain_lineText (h : s.console.PlainInput) : Plain s.lineText := by
  intro c hc
  obtain ⟨b, hb, rfl⟩ := List.mem_map.mp hc
  rw [Printable, Utf8.toNat_ofUInt8]
  exact h.printable b hb

/-- So it is a text. -/
theorem fromUtf8_line (h : s.console.PlainInput) : fromUtf8 s.console.line = some s.lineText := by
  have hline : Utf8.encode s.lineText = s.console.line := Utf8.encode_map_ofUInt8 fun b hb =>
    Nat.lt_of_le_of_lt (h.printable b hb).2 (by decide)
  rw [fromUtf8, ← hline, Utf8.decode_encode]

/-- The session that hands its line to the shell. -/
def entered (s : Session) (key : Char) : Session := { s with console := (s.console.enter key).1 }

/-- Enter executes the typed line. -/
theorem receiveKey_line (h : s.console.PlainInput) (hkey : key = '\n' ∨ key = '\r') :
    s.receiveKey env key = ((s.entered key).execute env s.lineText).prompt := by
  obtain ⟨command, hcommand, heq⟩ := receiveKey_enter s env hkey
  rw [enter_line h.inputLen_le hkey, Option.some_inj] at hcommand
  rw [heq, ← hcommand, executeLine, fromUtf8_line h]
  rfl

/-! ## Executed lines -/

/-- The line that a key hands to the shell. -/
def executedBy (s : Session) (key : Char) : Option Text :=
  if s.halted = false ∧ (key = '\n' ∨ key = '\r') then some s.lineText else none

/-- The lines that keys hand to the shell. -/
def executed (s : Session) : List (HeapEnv × Char) → List Text
  | [] => []
  | event :: events => (s.executedBy event.2).toList ++ (s.step event).executed events

/-- A line is executed by the first key or by a later one. -/
theorem mem_executed_cons {event : HeapEnv × Char} {events : List (HeapEnv × Char)} {text : Text} :
    text ∈ s.executed (event :: events) ↔
      s.executedBy event.2 = some text ∨ text ∈ (s.step event).executed events := by
  rw [executed, List.mem_append, Option.mem_toList]

/-- A key that hands no line to the shell edits the line or finds the session halted. -/
theorem step_of_executedBy_none {event : HeapEnv × Char} (h : s.executedBy event.2 = none) :
    s.step event = s ∨ ¬(event.2 = '\n' ∨ event.2 = '\r') ∧
      s.step event = { s with console := (s.console.receiveKey event.2).present } := by
  unfold executedBy at h
  unfold step
  by_cases hs : s.halted = true
  · exact Or.inl (if_pos hs)
  · have hkey : ¬(event.2 = '\n' ∨ event.2 = '\r') := by
      intro hkey
      rw [if_pos ⟨eq_false_of_ne_true hs, hkey⟩] at h
      cases h
    rw [if_neg hs]
    exact Or.inr ⟨hkey, receiveKey_edit hkey⟩

/-- A line that is handed to the shell is executed, and the next one prompted for. -/
theorem step_of_executedBy {event : HeapEnv × Char} {text : Text} (hinput : s.console.PlainInput)
    (h : s.executedBy event.2 = some text) :
    text = s.lineText ∧ s.halted = false ∧
      s.step event = ((s.entered event.2).execute event.1 text).prompt := by
  unfold executedBy at h
  split_ifs at h with hkey
  cases h
  refine ⟨rfl, hkey.1, ?_⟩
  rw [step, hkey.1, if_neg Bool.false_ne_true, receiveKey_line hinput hkey.2]

/-- A key keeps the input line plain. -/
theorem plainInput_step (h : s.console.PlainInput) (event : HeapEnv × Char) :
    (s.step event).console.PlainInput :=
  frame_after plainInput_rule (fun _ _ h => ⟨h.inputLen_le, h.printable⟩) s [event] h

/-- Executed lines are printable. -/
theorem executedBy_plain (hinput : s.console.PlainInput) {text : Text}
    (h : s.executedBy key = some text) : Plain text := by
  unfold executedBy at h
  split_ifs at h
  cases h
  exact plain_lineText hinput

end Session

end SillOS

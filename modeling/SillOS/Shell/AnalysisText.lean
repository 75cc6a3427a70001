import SillOS.Shell.Analysis
import SillOS.Shell.Effects

/-!
# The text of the memory analysis

Every line is put together from labels and numbers, section by section, so all of it
is printable.
-/

namespace SillOS.Shell

open MemAnalyze

variable {text : Text}

private theorem plain_paddedHex (n : Nat) : Plain (paddedHex n) := by
  have hdigits := (plain_append.mp (plain_hexadecimal n)).2
  refine plain_append.mpr ⟨plain_append.mpr ⟨plain_lit rfl, fun c hc => ?_⟩, hdigits⟩
  rw [List.eq_of_mem_replicate hc]
  decide

private theorem plain_yesNo (b : Bool) : Plain (yesNo b) := by
  cases b with
  | true => exact (plain_lit rfl : Plain "true".toList)
  | false => exact (plain_lit rfl : Plain "false".toList)

private theorem plain_labelled {l : Text} (h : plainChars l = true) (htext : Plain text) :
    Plain (labelled (String.ofList l) text) := plain_append.mpr ⟨plain_lit h, htext⟩

private theorem plain_counted {l l' : Text} (h : plainChars l = true) (h' : plainChars l' = true)
    (n : Nat) :
    Plain (counted (String.ofList l) n (String.ofList l')) :=
  plain_append.mpr ⟨plain_append.mpr ⟨plain_lit h, plain_decimal n⟩, plain_lit h'⟩

private theorem plain_percent {l : Text} (h : plainChars l = true) (n : Nat) :
    Plain (percent (String.ofList l) n) := by
  simp only [percent, plain_append]
  exact ⟨⟨⟨⟨plain_lit h, plain_decimal _⟩, plain_lit rfl⟩, plain_decimal _⟩, plain_lit rfl⟩

private theorem plain_heading {l : Text} (h : plainChars l = true) {lines : List Text}
    (hlines : ∀ line ∈ lines, Plain line) :
    ∀ line ∈ heading (String.ofList l) ++ lines, Plain line :=
  List.forall_mem_cons.mpr ⟨plain_nil, List.forall_mem_cons.mpr ⟨plain_lit h, hlines⟩⟩

private theorem plain_memoryMapSection (entries : List Frame.Entry) (t : Frame.Tally) :
    ∀ line ∈ memoryMapSection entries t, Plain line := by
  refine plain_heading rfl ?_
  simp only [List.forall_mem_cons]
  exact ⟨plain_counted rfl rfl _, plain_counted rfl rfl _, plain_counted rfl rfl _,
    plain_counted rfl rfl _, plain_counted rfl rfl _, plain_counted rfl rfl _,
    plain_counted rfl rfl _, plain_counted rfl rfl _, plain_counted rfl rfl _,
    plain_counted rfl rfl _, plain_counted rfl rfl _, plain_counted rfl rfl _,
    List.forall_mem_nil _⟩

private theorem plain_framesSection (t : Frame.Tally) : ∀ line ∈ framesSection t, Plain line := by
  refine plain_heading rfl ?_
  simp only [List.forall_mem_cons]
  refine ⟨plain_counted rfl rfl _, plain_counted rfl rfl _, plain_counted rfl rfl _, ?_, ?_,
    List.forall_mem_nil _⟩
  · cases t.firstUsableBase with
    | none => exact plain_lit rfl
    | some base => exact plain_labelled rfl (plain_paddedHex base)
  · cases t.lastUsableEnd with
    | none => exact plain_lit rfl
    | some last => exact plain_labelled rfl (plain_paddedHex last)

private theorem plain_addressSection (entries : List Frame.Entry) :
    ∀ line ∈ addressSection entries, Plain line := by
  unfold addressSection
  dsimp only
  rw [List.append_assoc]
  refine plain_heading rfl (List.forall_mem_append.mpr ⟨?_, ?_⟩)
  · split_ifs
    · exact List.forall_mem_singleton.mpr (plain_labelled rfl (plain_paddedHex _))
    · exact List.forall_mem_nil _
  · simp only [List.forall_mem_cons]
    exact ⟨plain_labelled rfl (plain_paddedHex _), plain_counted rfl rfl _, List.forall_mem_nil _⟩

private theorem plain_regionLine (index : Nat) (entry : Frame.Entry) :
    Plain (regionLine index entry) := by
  unfold regionLine
  refine plain_append.mpr ⟨plain_append.mpr ⟨?_, plain_lit rfl⟩, plain_decimal _⟩
  refine plain_append.mpr ⟨plain_append.mpr ⟨?_, plain_lit rfl⟩, plain_decimal _⟩
  refine plain_append.mpr ⟨plain_append.mpr ⟨?_, plain_lit rfl⟩, plain_paddedHex _⟩
  refine plain_append.mpr ⟨plain_append.mpr ⟨?_, plain_lit rfl⟩, plain_paddedHex _⟩
  exact plain_append.mpr ⟨plain_lit rfl, plain_decimal _⟩

private theorem plain_regionsSection (entries : List Frame.Entry) :
    ∀ line ∈ regionsSection entries, Plain line := by
  refine plain_heading rfl fun line hline => ?_
  obtain ⟨i, hi, rfl⟩ := List.mem_mapIdx.mp hline
  exact plain_regionLine i _

private theorem plain_pageTablesSection (offset cr3Physical : Nat) {cr3Flags : Text}
    (hflags : Plain cr3Flags) :
    ∀ line ∈ pageTablesSection offset cr3Physical cr3Flags, Plain line := by
  refine plain_heading rfl ?_
  simp only [List.forall_mem_cons]
  refine ⟨plain_labelled rfl (plain_paddedHex _), ?_, plain_labelled rfl hflags, plain_lit rfl,
    List.forall_mem_nil _⟩
  cases checkedAdd offset cr3Physical with
  | none => exact plain_lit rfl
  | some address => exact plain_labelled rfl (plain_paddedHex address)

private theorem plain_conversion (offset : Nat) (physical? : Option Nat) {l l' l'' : Text}
    (h : plainChars l = true) (h' : plainChars l' = true) (h'' : plainChars l'' = true) :
    ∀ line ∈ conversion offset physical? (String.ofList l) (String.ofList l') (String.ofList l''),
      Plain line := by
  cases physical? with
  | none => exact List.forall_mem_nil _
  | some physical =>
    rw [conversion]
    cases checkedAdd offset physical with
    | none => exact List.forall_mem_singleton.mpr (plain_lit h'')
    | some address =>
      exact List.forall_mem_cons.mpr ⟨plain_labelled h (plain_paddedHex _),
        List.forall_mem_singleton.mpr (plain_labelled h' (plain_paddedHex _))⟩

private theorem plain_conversionSection (offset : Nat) (t : Frame.Tally) :
    ∀ line ∈ conversionSection offset t, Plain line := by
  unfold conversionSection
  rw [List.append_assoc]
  exact plain_heading rfl (List.forall_mem_append.mpr
    ⟨plain_conversion offset _ rfl rfl rfl, plain_conversion offset _ rfl rfl rfl⟩)

private theorem plain_heapSection : ∀ line ∈ heapSection, Plain line := by
  unfold heapSection
  dsimp only
  rw [List.append_assoc]
  refine plain_heading rfl (List.forall_mem_append.mpr ⟨?_, ?_⟩)
  · simp only [List.forall_mem_cons]
    refine ⟨plain_labelled rfl (plain_paddedHex _), ?_, plain_counted rfl rfl _,
      plain_counted rfl rfl _, plain_counted rfl rfl _, plain_labelled rfl (plain_yesNo _),
      plain_labelled rfl (plain_yesNo _), List.forall_mem_nil _⟩
    cases checkedAdd heapStart heapSize with
    | none => exact plain_lit rfl
    | some last => exact plain_labelled rfl (plain_paddedHex last)
  · cases checkedAdd heapStart heapSize with
    | none => exact List.forall_mem_nil _
    | some last => exact List.forall_mem_singleton.mpr (plain_labelled rfl (plain_yesNo _))

private theorem plain_addressSpaceSection (offset : Nat) :
    ∀ line ∈ addressSpaceSection offset, Plain line := by
  refine plain_heading rfl ?_
  simp only [List.forall_mem_cons]
  exact ⟨plain_labelled rfl (plain_paddedHex _), plain_labelled rfl (plain_paddedHex _),
    plain_labelled rfl (plain_yesNo _), List.forall_mem_nil _⟩

private theorem plain_capacitySection (t : Frame.Tally) :
    ∀ line ∈ capacitySection t, Plain line := by
  refine plain_heading rfl ?_
  simp only [List.forall_mem_cons]
  refine ⟨plain_counted rfl rfl _, plain_counted rfl rfl _, ?_, List.forall_mem_nil _⟩
  split_ifs
  · exact plain_percent rfl _
  · exact plain_lit rfl

private theorem plain_alignmentSection (offset cr3Physical : Nat) (t : Frame.Tally) :
    ∀ line ∈ alignmentSection offset cr3Physical t, Plain line := by
  unfold alignmentSection
  rw [List.append_assoc]
  refine plain_heading rfl (List.forall_mem_append.mpr ⟨?_, ?_⟩)
  · simp only [List.forall_mem_cons]
    exact ⟨plain_counted rfl rfl _, plain_labelled rfl (plain_yesNo _),
      plain_labelled rfl (plain_yesNo _), plain_labelled rfl (plain_yesNo _), List.forall_mem_nil _⟩
  · cases t.firstUsableBase with
    | none => exact List.forall_mem_nil _
    | some base => exact List.forall_mem_singleton.mpr (plain_labelled rfl (plain_yesNo _))

private theorem plain_summarySection (offset cr3Physical : Nat) (t : Frame.Tally) :
    ∀ line ∈ summarySection offset cr3Physical t, Plain line := by
  refine plain_heading rfl ?_
  simp only [List.forall_mem_cons]
  exact ⟨plain_counted rfl rfl _, plain_counted rfl rfl _, plain_percent rfl _,
    plain_counted rfl rfl _, plain_counted rfl rfl _, plain_counted rfl rfl _,
    plain_labelled rfl (plain_paddedHex _), plain_labelled rfl (plain_paddedHex _),
    List.forall_mem_nil _⟩

private theorem plain_banner : ∀ line ∈ banner, Plain line := by
  simp only [banner, List.forall_mem_cons]
  exact ⟨plain_nil, plain_lit rfl, plain_lit rfl, plain_lit rfl, List.forall_mem_nil _⟩

private theorem plain_footer : ∀ line ∈ footer, Plain line := by
  simp only [footer, List.forall_mem_cons]
  exact ⟨plain_nil, plain_lit rfl, plain_lit rfl, plain_lit rfl, plain_nil, List.forall_mem_nil _⟩

/-- Every line of the analysis is plain. -/
theorem plain_memAnalyze {m : MemoryInfo} (hflags : Plain m.cr3Flags) :
    ∀ line ∈ memAnalyze m, Plain line := by
  have hhhdm : ∀ offset, ∀ line ∈ hhdmSection offset, Plain line := fun offset =>
    plain_heading rfl (List.forall_mem_singleton.mpr (plain_labelled rfl (plain_paddedHex offset)))
  unfold memAnalyze
  cases m.hhdm with
  | none =>
    exact List.forall_mem_append.mpr ⟨plain_banner, List.forall_mem_singleton.mpr (plain_lit rfl)⟩
  | some offset =>
    cases m.memoryMap with
    | none =>
      exact List.forall_mem_append.mpr ⟨List.forall_mem_append.mpr ⟨plain_banner, hhhdm offset⟩,
        List.forall_mem_singleton.mpr (plain_lit rfl)⟩
    | some entries =>
      simp only [List.forall_mem_append]
      exact ⟨⟨⟨⟨⟨⟨⟨⟨⟨⟨⟨⟨⟨plain_banner, hhhdm offset⟩, plain_memoryMapSection _ _⟩,
        plain_framesSection _⟩, plain_addressSection _⟩, plain_regionsSection _⟩,
        plain_pageTablesSection _ _ hflags⟩, plain_conversionSection _ _⟩, plain_heapSection⟩,
        plain_addressSpaceSection _⟩, plain_capacitySection _⟩, plain_alignmentSection _ _ _⟩,
        plain_summarySection _ _ _⟩, plain_footer⟩

end SillOS.Shell

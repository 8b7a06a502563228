import Vexcoder.Conversation.CondensedText

/-!
# Condensing twice

Condensing the lines of a text twice is condensing them once.  The text is read back from what was
written, though, and reading drops a carriage return at the end of a line and an empty last line:
only where no line that is kept has one is the text of the second time that of the first.
-/

namespace Vexcoder.Conversation

open Base ResultLines

/-! ### The lines -/

theorem plainCount_append (front rest : List String) :
    plainCount (front ++ rest) = plainCount front + plainCount rest :=
  List.countP_append

variable (result : ResultLines) (lines : List String) (text : String)

theorem plainCount_condensed : plainCount result.condensed.body ≤ condensedToolResultLines := by
  rw [condensed]
  split
  · rw [kept, plainCount_keptBody]
    exact Nat.min_le_left _ _
  have hreport : plainCount [report result.hidden] = 0 := by
    rw [plainCount_cons, if_pos (isMarker_report _)]
    rfl
  show plainCount (result.kept.body ++ [report result.hidden]) ≤ _
  rw [plainCount_append, hreport, kept, plainCount_keptBody]
  exact Nat.min_le_left _ _

theorem condensed_eq_self {result : ResultLines}
    (h : plainCount result.body ≤ condensedToolResultLines) : result.condensed = result := by
  have hhidden : result.hidden = 0 := Nat.sub_eq_zero_of_le h
  rw [condensed, if_pos hhidden, kept, keptBody_eq_self h]

theorem condensed_condensed : result.condensed.condensed = result.condensed :=
  condensed_eq_self (plainCount_condensed result)

theorem condensed_header : result.condensed.header = result.header := by
  rw [condensed]
  split <;> rfl

theorem wellFormed_condensed {result : ResultLines} (h : result.WellFormed) :
    result.condensed.WellFormed := by
  have hkept : ∀ line ∈ result.kept.body, isHeader line = false := fun line hline =>
    h.body line ((keptBody_sublist _ _).subset hline)
  refine ⟨(condensed_header result).symm ▸ h.header, ?_⟩
  rw [condensed]
  split
  · exact hkept
  intro line hline
  rcases List.mem_append.mp hline with hline | hline
  · exact hkept line hline
  · rw [List.mem_singleton.mp hline]
    exact isHeader_report _

theorem wellFormed_of_mem_condensed {lines : List String} {result : ResultLines}
    (h : result ∈ (resultLines lines).map ResultLines.condensed) : result.WellFormed := by
  obtain ⟨original, horiginal, rfl⟩ := List.mem_map.mp h
  exact wellFormed_condensed (wellFormed_of_mem horiginal)

theorem isHeader_empty : isHeader "" = false := by decide

theorem isHeader_of_mem_front {lines : List String} {line : String}
    (h : line ∈ (linesBefore lines).dropWhile Text.isEmpty) : isHeader line = false :=
  isHeader_of_mem_linesBefore ((List.dropWhile_sublist _).subset h)

theorem resultLines_condensedLines :
    resultLines (condensedLines lines) = (resultLines lines).map ResultLines.condensed := by
  rw [condensedLines, resultLines_append fun _ h => isHeader_of_mem_front h,
    resultLines_flatMap fun _ h => wellFormed_of_mem_condensed h]

theorem linesBefore_condensedLines :
    linesBefore (condensedLines lines) = (linesBefore lines).dropWhile Text.isEmpty := by
  rw [condensedLines, linesBefore_append fun _ h => isHeader_of_mem_front h,
    linesBefore_flatMap fun _ h => wellFormed_of_mem_condensed h, List.append_nil]

theorem condensedLines_condensedLines : condensedLines (condensedLines lines) = condensedLines lines := by
  have hmap : ((resultLines lines).map condensed).map condensed =
      (resultLines lines).map condensed := by
    rw [List.map_map]
    exact List.map_congr_left fun result _ => condensed_condensed result
  rw [condensedLines, linesBefore_condensedLines, resultLines_condensedLines, List.dropWhile_idempotent, hmap]
  rfl

theorem condensedLines_blank {blank : List String} (h : ∀ line ∈ blank, line = "")
    (lines : List String) : condensedLines (blank ++ lines) = condensedLines lines := by
  have hheader : ∀ line ∈ blank, isHeader line = false := fun line hline => by
    rw [h line hline]
    exact isHeader_empty
  rw [condensedLines, linesBefore_append hheader, resultLines_append hheader,
    List.dropWhile_append_of_pos fun line hline => Text.isEmpty_iff.mpr (h line hline)]
  rfl

/-! ### The text -/

theorem blankInFront_cases :
    blankInFront text = [] ∨
      blankInFront text = [""] ∧ (linesBefore (Text.lines text)).dropWhile Text.isEmpty = [] ∧
        resultLines (Text.lines text) ≠ [] := by
  rw [blankInFront]
  split
  · rename_i hcond
    rw [Bool.and_eq_true, Bool.and_eq_true] at hcond
    refine Or.inr ⟨rfl, List.dropWhile_eq_nil_iff.mpr (List.all_eq_true.mp hcond.1.2), ?_⟩
    intro hnone
    rw [hnone] at hcond
    exact absurd hcond.2 (by decide)
  · exact Or.inl rfl

theorem mem_blankInFront {text line : String} (h : line ∈ blankInFront text) : line = "" := by
  rcases blankInFront_cases text with hnil | ⟨hone, -⟩
  · rw [hnil] at h
    cases h
  · rw [hone] at h
    exact List.mem_singleton.mp h

theorem newline_not_mem_writtenLines {text : String} : ∀ line ∈ writtenLines text, '\n' ∉ line.toList := by
  intro line h
  rcases List.mem_append.mp h with h | h
  · rw [mem_blankInFront h]
    exact List.not_mem_nil
  · exact newline_not_mem_condensedLines h

theorem lines_condensed :
    Text.lines (condenseTextProtocolToolResults text) = Text.relined (writtenLines text) := by
  rw [condenseTextProtocolToolResults_eq, Text.lines_join newline_not_mem_writtenLines]

theorem pieces_condensed {text : String} (h : writtenLines text ≠ []) :
    Text.pieces (condenseTextProtocolToolResults text) = writtenLines text := by
  rw [condenseTextProtocolToolResults_eq, Text.pieces_join h newline_not_mem_writtenLines]

theorem condensedLines_ne_nil {lines : List String} (h : resultLines lines ≠ []) :
    condensedLines lines ≠ [] := by
  intro hnil
  have hresults := resultLines_condensedLines lines
  rw [hnil] at hresults
  exact h (List.map_eq_nil_iff.mp hresults.symm)

theorem relined_writtenLines :
    Text.relined (writtenLines text) =
      blankInFront text ++ Text.relined (condensedLines (Text.lines text)) := by
  rw [writtenLines]
  rcases blankInFront_cases text with hnil | ⟨hone, -, hresults⟩
  · rw [hnil, List.nil_append, List.nil_append]
  · rw [hone, List.singleton_append, Text.relined_cons (condensedLines_ne_nil hresults)]
    rfl

/-- What the second time writes, but for the empty line in front. -/
theorem condensedLines_lines_condensed :
    condensedLines (Text.lines (condenseTextProtocolToolResults text)) =
      condensedLines (Text.relined (condensedLines (Text.lines text))) := by
  rw [lines_condensed, relined_writtenLines, condensedLines_blank fun _ h => mem_blankInFront h]

/-! ### What is written is not heavier -/

theorem weight_append (front rest : List String) :
    Text.weight (front ++ rest) = Text.weight front + Text.weight rest := by
  rw [Text.weight, Text.weight, Text.weight, List.map_append, List.sum_append]

theorem weight_sublist {K L : List String} (h : K.Sublist L) : Text.weight K ≤ Text.weight L := by
  induction h with
  | slnil => exact Nat.le_refl _
  | cons line _ ih => exact Nat.le_trans ih (Nat.le_add_left _ (Text.lineWeight line))
  | cons_cons line _ ih => exact Nat.add_le_add_left ih (Text.lineWeight line)

theorem weight_report (hidden : ℕ) : Text.weight [report hidden] = 0 := by
  show Text.lineWeight (report hidden) + 0 = 0
  rw [Text.lineWeight, List.count_eq_zero.mpr (not_mem_report (Or.inr rfl) hidden),
    if_neg (report_ne_empty hidden)]

theorem weight_condensed : Text.weight result.condensed.lines ≤ Text.weight result.lines := by
  have hkept : Text.weight result.kept.lines ≤ Text.weight result.lines :=
    weight_sublist ((keptBody_sublist _ result.body).cons_cons result.header)
  rw [condensed]
  split
  · exact hkept
  · show Text.weight (result.kept.lines ++ [report result.hidden]) ≤ _
    rw [weight_append, weight_report]
    exact hkept

theorem weight_results (results : List ResultLines) :
    Text.weight ((results.map ResultLines.condensed).flatMap ResultLines.lines) ≤
      Text.weight (results.flatMap ResultLines.lines) := by
  induction results with
  | nil => exact Nat.le_refl _
  | cons result results ih =>
    rw [List.map_cons, List.flatMap_cons, List.flatMap_cons, weight_append, weight_append]
    exact Nat.add_le_add (weight_condensed result) ih

theorem weight_condensedLines : Text.weight (condensedLines lines) ≤ Text.weight lines := by
  calc Text.weight (condensedLines lines)
      ≤ Text.weight (linesBefore lines) + Text.weight ((resultLines lines).flatMap ResultLines.lines) := by
        rw [condensedLines, weight_append]
        exact Nat.add_le_add (weight_sublist (List.dropWhile_sublist _)) (weight_results _)
    _ = Text.weight lines := by rw [← weight_append, linesBefore_append_results]

/-! ### The second time -/

theorem dropWhile_isEmpty_eq_self {K : List String} (h : K.head? ≠ some "") :
    K.dropWhile Text.isEmpty = K := by
  cases K with
  | nil => rfl
  | cons line K =>
    refine List.dropWhile_cons_of_neg fun hempty => h ?_
    rw [Text.isEmpty_iff.mp hempty]
    rfl

theorem dropWhile_writtenLines :
    (writtenLines text).dropWhile Text.isEmpty = condensedLines (Text.lines text) := by
  rw [writtenLines, List.dropWhile_append_of_pos fun _ h => Text.isEmpty_iff.mpr (mem_blankInFront h)]
  exact dropWhile_isEmpty_eq_self (head?_condensedLines _)

/-- The lines that are kept are those of the text that is written. -/
theorem dropWhile_pieces_condensed :
    (Text.pieces (condenseTextProtocolToolResults text)).dropWhile Text.isEmpty =
      condensedLines (Text.lines text) := by
  by_cases hnil : writtenLines text = []
  · rw [condenseTextProtocolToolResults_eq, ← dropWhile_writtenLines, hnil]
    rfl
  · rw [pieces_condensed hnil, dropWhile_writtenLines]

/-- The empty line in front is there again, when nothing is lost in reading. -/
theorem blankInFront_condensed {text : String} (h : Text.Rejoins (condensedLines (Text.lines text))) :
    blankInFront (condenseTextProtocolToolResults text) = blankInFront text := by
  have hlines : Text.lines (condenseTextProtocolToolResults text) =
      blankInFront text ++ condensedLines (Text.lines text) := by
    rw [lines_condensed, relined_writtenLines, (Text.relined_eq_self_iff _).mpr h]
  rcases blankInFront_cases text with hnil | ⟨hone, hbefore, hresults⟩
  · have hstart := startsWith_join (fun _ hl => newline_not_mem_condensedLines hl)
      (head?_condensedLines (Text.lines text))
    rw [blankInFront, condenseTextProtocolToolResults_eq, writtenLines, hnil, List.nil_append, hstart]
    rfl
  · have hblank : ∀ line ∈ [""], isHeader line = false := fun line hline => by
      rw [List.mem_singleton.mp hline]
      exact isHeader_empty
    rw [hone] at hlines ⊢
    have hstart : Text.startsWith (condenseTextProtocolToolResults text) "\n" = true := by
      rw [condenseTextProtocolToolResults_eq, writtenLines, hone, List.singleton_append,
        Text.join_cons (condensedLines_ne_nil hresults)]
      simp [Text.startsWith]
    have hall : (linesBefore (Text.lines (condenseTextProtocolToolResults text))).all
        Text.isEmpty = true := by
      rw [hlines, linesBefore_append hblank, linesBefore_condensedLines, hbefore]
      rfl
    have hagain : (resultLines (Text.lines (condenseTextProtocolToolResults text))).isEmpty = false := by
      rw [hlines, resultLines_append hblank, resultLines_condensedLines, List.isEmpty_map]
      exact List.isEmpty_eq_false_iff.mpr hresults
    rw [blankInFront, hstart, hall, hagain]
    rfl

theorem condensed_twice_iff :
    condenseTextProtocolToolResults (condenseTextProtocolToolResults text) =
        condenseTextProtocolToolResults text ↔
      Text.Rejoins (condensedLines (Text.lines text)) := by
  constructor
  · intro htwice
    have hlines := dropWhile_pieces_condensed (condenseTextProtocolToolResults text)
    rw [htwice, dropWhile_pieces_condensed, condensedLines_lines_condensed] at hlines
    refine (Text.relined_eq_self_iff _).mp ((Text.weight_relined _).resolve_right fun hless => ?_)
    have hle := weight_condensedLines (Text.relined (condensedLines (Text.lines text)))
    rw [← hlines] at hle
    omega
  · intro hrejoins
    have hlines := condensedLines_lines_condensed text
    rw [(Text.relined_eq_self_iff _).mpr hrejoins, condensedLines_condensedLines] at hlines
    rw [condenseTextProtocolToolResults_eq (condenseTextProtocolToolResults text), writtenLines,
      hlines, blankInFront_condensed hrejoins, ← writtenLines, ← condenseTextProtocolToolResults_eq]

-- each time takes one of two carriage returns
example : condenseTextProtocolToolResults "tool_result ls:\na\r\r\nb" = "tool_result ls:\na\r\nb" ∧
    condenseTextProtocolToolResults "tool_result ls:\na\r\nb" = "tool_result ls:\na\nb" := by
  decide +kernel

/-! ### The same of the lines that were read -/

/-- The lines of the text that stay. -/
def keptLines (lines : List String) : List String :=
  (linesBefore lines).dropWhile Text.isEmpty ++ (resultLines lines).flatMap fun result => result.kept.lines

def endsShort (lines : List String) : Bool :=
  (resultLines lines).getLast?.any fun result => 0 < result.hidden

/-- No line that stays ends with a carriage return, unless nothing comes after it, and the text does
not end with an empty one. -/
def SettledLines (lines : List String) : Prop :=
  if endsShort lines then ∀ line ∈ keptLines lines, Text.endsWith line "\r" = false
  else Text.Rejoins (keptLines lines)

theorem endsWith_report (hidden : ℕ) : Text.endsWith (report hidden) "\r" = false := by
  rw [← Bool.not_eq_true, Text.endsWith_char_iff (c := '\r') (by decide)]
  exact fun hlast => not_mem_report (Or.inr rfl) hidden (List.mem_of_getLast? hlast)

theorem condensed_lines :
    result.hidden = 0 ∧ result.condensed.lines = result.kept.lines ∨
      0 < result.hidden ∧ result.condensed.lines = result.kept.lines ++ [report result.hidden] := by
  rw [condensed]
  split
  · rename_i hzero
    exact Or.inl ⟨hzero, rfl⟩
  · rename_i hpos
    exact Or.inr ⟨Nat.pos_of_ne_zero hpos, rfl⟩

theorem forall_condensed_lines :
    (∀ line ∈ result.condensed.lines, Text.endsWith line "\r" = false) ↔
      ∀ line ∈ result.kept.lines, Text.endsWith line "\r" = false := by
  rcases condensed_lines result with ⟨-, heq⟩ | ⟨-, heq⟩
  · rw [heq]
  · rw [heq, List.forall_mem_append, List.forall_mem_singleton]
    exact and_iff_left (endsWith_report _)

theorem forall_condensed_flatMap (results : List ResultLines) :
    (∀ line ∈ (results.map ResultLines.condensed).flatMap ResultLines.lines,
        Text.endsWith line "\r" = false) ↔
      ∀ line ∈ results.flatMap fun result => result.kept.lines, Text.endsWith line "\r" = false := by
  induction results with
  | nil => rfl
  | cons result results ih =>
    rw [List.map_cons, List.flatMap_cons, List.flatMap_cons, List.forall_mem_append,
      List.forall_mem_append, forall_condensed_lines, ih]

theorem rejoins_condensedLines_iff : Text.Rejoins (condensedLines lines) ↔ SettledLines lines := by
  rw [SettledLines, endsShort, keptLines, condensedLines]
  rcases List.eq_nil_or_concat (resultLines lines) with hnone | ⟨results, last, hresults⟩
  · rw [hnone]
    rfl
  have hne : last.condensed.lines ≠ [] := List.cons_ne_nil _ _
  have hne' : last.kept.lines ≠ [] := List.cons_ne_nil _ _
  rw [hresults, List.concat_eq_append, List.map_append, List.flatMap_append, List.flatMap_append,
    List.map_singleton, List.flatMap_singleton, List.flatMap_singleton, ← List.append_assoc,
    ← List.append_assoc, Text.rejoins_append _ hne, List.forall_mem_append, forall_condensed_flatMap]
  rcases condensed_lines last with ⟨hzero, heq⟩ | ⟨hpos, heq⟩
  · rw [heq, if_neg (by simp [hzero]), Text.rejoins_append _ hne', List.forall_mem_append]
  rw [heq, if_pos (by simp [hpos]), Text.rejoins_append _ (List.cons_ne_nil _ []),
    List.forall_mem_append, List.forall_mem_append]
  have hreport : Text.Rejoins [report last.hidden] :=
    ⟨List.forall_mem_nil _, fun h => report_ne_empty _ (Option.some.inj h)⟩
  rw [and_iff_left hreport]

end Vexcoder.Conversation

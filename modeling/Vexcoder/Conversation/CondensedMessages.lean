import Mathlib.Data.List.Forall2
import Vexcoder.Conversation.CondensedAgain

/-!
# Condensing the old tool results

`condense_old_tool_results` is to touch nothing but tool results, to account for every line of one,
and to do nothing more the second time.  It does so exactly where no text of the user that mentions
a result loses a line break, no result with a line shaped like a report goes over the limit, and no
line that is kept changes when it is read back.
-/

namespace Vexcoder.Conversation

open Base

/-! ### One result -/

/-- The lines of a result, without a report at their end. -/
def contentLines (body : List String) : List String :=
  if body.getLast?.any isMarker then body.dropLast else body

/-- A few of the lines, and a report that counts the others. -/
def Shortened (body written : List String) : Prop :=
  ∃ kept hidden, written = kept ++ [report hidden] ∧ kept.Sublist body ∧
    kept.length ≤ condensedToolResultLines ∧ kept.length + hidden = body.length

def BodyKept (body written : List String) : Prop :=
  written = body ∧ (contentLines body).length ≤ condensedToolResultLines ∨ Shortened body written

def ResultKept (result written : ResultLines) : Prop :=
  written.header = result.header ∧ BodyKept result.body written.body

/-- The result has few lines, or none that looks like a report. -/
def ResultLines.Plain (result : ResultLines) : Prop :=
  (contentLines result.body).length ≤ condensedToolResultLines ∨ ∀ line ∈ result.body, isMarker line = false

variable (messages : List ApiMessage) (body : List String) (content : String) (keepTurns : ℕ)

theorem contentLines_length_le : (contentLines body).length ≤ body.length := by
  rw [contentLines]
  split
  · rw [List.length_dropLast]
    exact Nat.sub_le _ _
  · exact Nat.le_refl _

theorem contentLines_concat_report (kept : List String) (hidden : ℕ) :
    contentLines (kept ++ [report hidden]) = kept := by
  rw [contentLines, List.getLast?_concat, Option.any_some, if_pos (isMarker_report hidden),
    List.dropLast_concat]

theorem plainCount_le_contentLines : plainCount body ≤ (contentLines body).length := by
  rw [contentLines]
  split
  · rename_i hmarker
    rcases List.eq_nil_or_concat body with rfl | ⟨front, last, rfl⟩
    · exact Nat.le_refl _
    rw [List.concat_eq_append, List.getLast?_concat, Option.any_some] at hmarker
    have hlast : plainCount [last] = 0 := by
      rw [plainCount_cons, if_pos hmarker]
      rfl
    rw [List.concat_eq_append, plainCount_append, hlast, List.dropLast_concat]
    exact List.countP_le_length
  · exact List.countP_le_length

theorem plainCount_eq_length_iff : plainCount body = body.length ↔ ∀ line ∈ body, isMarker line = false := by
  rw [plainCount, List.countP_eq_length]
  refine forall₂_congr fun line _ => ?_
  cases isMarker line <;> decide

variable {hidden : ℕ} {text line : String}

theorem shortened_concat_iff {body kept : List String} :
    Shortened body (kept ++ [report hidden]) → kept.length ≤ condensedToolResultLines := by
  rintro ⟨kept', hidden', heq, -, hlen, -⟩
  rwa [(List.append_inj' heq rfl).1]

/-- A condensed result is accounted for exactly where no line of it is taken for a report. -/
theorem resultKept_condensed_iff (result : ResultLines) :
    ResultKept result result.condensed ↔ result.Plain := by
  have hcount := plainCount_le_contentLines result.body
  have hplain : plainCount result.body ≤ result.body.length := List.countP_le_length
  rw [ResultKept, and_iff_right (condensed_header result), ResultLines.Plain,
    ← plainCount_eq_length_iff]
  by_cases hfew : plainCount result.body ≤ condensedToolResultLines
  · -- all of its lines are kept
    rw [condensed_eq_self hfew]
    have hlength := contentLines_length_le result.body
    constructor
    · rintro (⟨-, hbound⟩ | ⟨kept, hidden, heq, -, hlen, -⟩)
      · exact Or.inl hbound
      · left
        rw [heq, contentLines_concat_report]
        exact hlen
    · rintro (hbound | hall)
      · exact Or.inl ⟨rfl, hbound⟩
      · exact Or.inl ⟨rfl, by omega⟩
  · have hhidden : result.hidden = plainCount result.body - condensedToolResultLines := rfl
    have hbody : result.condensed.body = result.kept.body ++ [report result.hidden] := by
      rw [ResultLines.condensed, if_neg (by omega)]
    have hkept : result.kept.body.length + result.hidden = result.body.length :=
      length_keptBody _ result.body
    rw [hbody]
    constructor
    · rintro (⟨-, hbound⟩ | hshort)
      · omega
      · have := shortened_concat_iff hshort
        right
        omega
    · rintro (hbound | hall)
      · omega
      · exact Or.inr ⟨_, _, rfl, keptBody_sublist _ _, by omega, hkept⟩

/-! ### The content of a block -/

/-- The content stays and has few lines, or it is shortened. -/
def ContentKept (content written : String) : Prop :=
  written = content ∧ (contentLines (Text.lines content)).length ≤ condensedToolResultLines ∨
    Shortened (Text.lines content) (Text.pieces written)

/-- The last line by which `truncate_to_lines` takes a content for one that was shortened before. -/
def endsReported (content : String) : Bool :=
  (Text.lines content).getLast?.any fun line => Text.endsWith line "more lines)"

def PlainContent (content : String) : Prop :=
  (contentLines (Text.lines content)).length ≤ condensedToolResultLines ∨ endsReported content = false

theorem truncateToLines_cases :
    truncateToLines content condensedToolResultLines = content ∧
        (endsReported content = true ∨ (Text.lines content).length ≤ condensedToolResultLines) ∨
      endsReported content = false ∧ condensedToolResultLines < (Text.lines content).length ∧
        truncateToLines content condensedToolResultLines =
          Text.join "\n" ((Text.lines content).take condensedToolResultLines ++
            [report ((Text.lines content).length - condensedToolResultLines)]) := by
  rw [truncateToLines]
  by_cases hends : endsReported content = true
  · exact Or.inl ⟨if_pos hends, Or.inl hends⟩
  have hends' : ¬((Text.lines content).getLast?.any
      fun line => Text.endsWith line "more lines)") = true := hends
  by_cases hlen : (Text.lines content).length ≤ condensedToolResultLines
  · refine Or.inl ⟨?_, Or.inr hlen⟩
    simp only [if_neg hends', if_pos hlen]
  right
  have htake : (Text.lines content).take condensedToolResultLines ≠ [] := by
    intro hnil
    have := congrArg List.length hnil
    rw [List.length_take] at this
    simp only [List.length_nil, condensedToolResultLines] at this hlen
    omega
  simp only [if_neg hends', if_neg hlen]
  refine ⟨Bool.not_eq_true _ ▸ hends, Nat.lt_of_not_le hlen, ?_⟩
  rw [Text.join_concat htake]
  simp only [String.append_assoc]
  rfl

theorem newline_not_mem_truncated {content : String} :
    ∀ line ∈ (Text.lines content).take condensedToolResultLines ++ [report hidden], '\n' ∉ line.toList := by
  intro line h
  rcases List.mem_append.mp h with h | h
  · exact Text.newline_not_mem_of_mem_lines (List.mem_of_mem_take h)
  · rw [List.mem_singleton.mp h]
    exact not_mem_report (Or.inl rfl) hidden

theorem contentLines_of_pieces {content : String} {kept : List String}
    (h : Text.pieces content = kept ++ [report hidden]) :
    (contentLines (Text.lines content)).length = kept.length := by
  rw [Text.lines_eq_relined, h, Text.relined_concat kept (report_ne_empty hidden),
    contentLines_concat_report, List.length_map]

theorem contentKept_truncate_iff :
    ContentKept content (truncateToLines content condensedToolResultLines) ↔ PlainContent content := by
  have hlength := contentLines_length_le (Text.lines content)
  rcases truncateToLines_cases content with ⟨hsame, hwhy⟩ | ⟨hends, hlen, hcut⟩
  · rw [hsame]
    constructor
    · rintro (⟨-, hbound⟩ | ⟨kept, hidden, heq, -, hkept, -⟩)
      · exact Or.inl hbound
      · left
        rw [contentLines_of_pieces heq]
        exact hkept
    · rintro (hbound | hnot)
      · exact Or.inl ⟨rfl, hbound⟩
      · rw [hnot] at hwhy
        rcases hwhy with hwhy | hwhy
        · cases hwhy
        · exact Or.inl ⟨rfl, hlength.trans hwhy⟩
  · refine ⟨fun _ => Or.inr hends, fun _ => Or.inr ?_⟩
    rw [hcut, Text.pieces_join (List.append_ne_nil_of_right_ne_nil _ (List.cons_ne_nil _ _))
      newline_not_mem_truncated]
    refine ⟨_, _, rfl, List.take_sublist _ _, ?_, ?_⟩
    · rw [List.length_take]
      exact Nat.min_le_left _ _
    · rw [List.length_take]
      omega

-- the preview of a long output ends with a count of its own, and stays whole
example : truncateToLines "1\n2\n3\n4\n5\n6\n  ... (9 more lines)" condensedToolResultLines =
    "1\n2\n3\n4\n5\n6\n  ... (9 more lines)" := by decide +kernel

theorem truncateToLines_twice :
    truncateToLines (truncateToLines content condensedToolResultLines) condensedToolResultLines =
      truncateToLines content condensedToolResultLines := by
  rcases truncateToLines_cases content with ⟨hsame, -⟩ | ⟨-, -, hcut⟩
  · rw [hsame, hsame]
  rw [hcut]
  have hmarker := isMarker_report ((Text.lines content).length - condensedToolResultLines)
  rw [isMarker, Bool.and_eq_true] at hmarker
  rw [truncateToLines, Text.lines_join newline_not_mem_truncated,
    Text.relined_concat _ (report_ne_empty _), List.getLast?_concat]
  exact if_pos hmarker.1

/-! ### A text that mentions a result -/

theorem mentions_of_header (hline : line.toList <:+: text.toList) (hheader : isHeader line = true) :
    mentionsToolResult text = true := by
  rw [isHeader, Bool.or_eq_true, Text.startsWith, Text.startsWith, List.isPrefixOf_iff_prefix,
    List.isPrefixOf_iff_prefix] at hheader
  rw [mentionsToolResult, Bool.or_eq_true, Text.contains_iff, Text.contains_iff]
  exact hheader.imp (fun h => h.isInfix.trans hline) fun h => h.isInfix.trans hline

theorem trimStart_inside (line : String) : (Text.trimStart line).toList <:+: line.toList := by
  rw [Text.trimStart, String.toList_ofList]
  exact (List.dropWhile_suffix _).isInfix

/-- What the overflow path takes for a tool result mentions one. -/
theorem mentions_of_toolResultMessage (h : textProtocolToolResultMessage text = true) :
    mentionsToolResult text = true := by
  obtain ⟨line, hline, hheader⟩ := List.any_eq_true.mp h
  exact mentions_of_header ((trimStart_inside line).trans (Text.infix_of_mem_lines hline)) hheader

theorem trimStart_of_isHeader (h : isHeader line = true) : Text.trimStart line = line := by
  rw [isHeader, Bool.or_eq_true, Text.startsWith, Text.startsWith, List.isPrefixOf_iff_prefix,
    List.isPrefixOf_iff_prefix] at h
  apply String.toList_inj.mp
  rw [Text.trimStart, String.toList_ofList]
  rcases h with ⟨rest, hrest⟩ | ⟨rest, hrest⟩ <;> rw [← hrest] <;> rfl

/-- A text that is no tool result for the overflow path has no header. -/
theorem resultLines_eq_nil (h : textProtocolToolResultMessage text = false) :
    resultLines (Text.lines text) = [] := by
  refine List.eq_nil_iff_forall_not_mem.mpr fun result hresult => ?_
  have hheader := (wellFormed_of_mem hresult).header
  have hmem : result.header ∈ Text.lines text := by
    rw [← linesBefore_append_results (Text.lines text)]
    exact List.mem_append_right _ (List.mem_flatMap.mpr ⟨result, hresult, List.mem_cons_self⟩)
  have hline := List.any_eq_false.mp h result.header hmem
  rw [trimStart_of_isHeader hheader] at hline
  exact hline hheader

theorem condensedLines_of_no_results {lines : List String} (h : resultLines lines = []) :
    condensedLines lines = lines.dropWhile Text.isEmpty := by
  have hbefore := linesBefore_append_results lines
  rw [h, List.flatMap_nil, List.append_nil] at hbefore
  rw [condensedLines, h, hbefore]
  exact List.append_nil _

theorem mem_of_ne_empty {lines : List String} (hline : line ∈ lines) (hne : line ≠ "") :
    line ∈ lines.dropWhile Text.isEmpty := by
  rw [← List.takeWhile_append_dropWhile (p := Text.isEmpty) (l := lines)] at hline
  rcases List.mem_append.mp hline with h | h
  · exact absurd (Text.isEmpty_iff.mp (List.mem_takeWhile_imp h)) hne
  · exact h

theorem infix_of_mem_condensedLines (h : line ∈ condensedLines (Text.lines text)) :
    line.toList <:+: (condenseTextProtocolToolResults text).toList := by
  rw [condenseTextProtocolToolResults_eq]
  exact Text.infix_join (List.mem_append_right _ h)

/-- A mention within one line is still there, when no result is. -/
theorem contains_condensed {pat : String} (hbreak : '\n' ∉ pat.toList)
    (hlast : pat.toList.getLast? ≠ some '\r') (hne : pat.toList ≠ [])
    (hnone : resultLines (Text.lines text) = []) (h : Text.contains text pat = true) :
    Text.contains (condenseTextProtocolToolResults text) pat = true := by
  obtain ⟨line, hline, hin⟩ := Text.infix_lines hbreak hlast hne (Text.contains_iff.mp h)
  have hline' : line ≠ "" := by
    rintro rfl
    exact hne (List.infix_nil.mp hin)
  have hmem := mem_of_ne_empty hline hline'
  rw [← condensedLines_of_no_results hnone] at hmem
  exact Text.contains_iff.mpr (hin.trans (infix_of_mem_condensedLines hmem))

theorem mentions_condensed (h : mentionsToolResult text = true) :
    mentionsToolResult (condenseTextProtocolToolResults text) = true := by
  cases hresults : resultLines (Text.lines text) with
  | nil =>
    rw [mentionsToolResult, Bool.or_eq_true] at h ⊢
    exact h.imp (contains_condensed (by decide) (by decide) (by decide) hresults)
      (contains_condensed (by decide) (by decide) (by decide) hresults)
  | cons result results =>
    have hmem : result ∈ resultLines (Text.lines text) := hresults ▸ List.mem_cons_self
    have hline : result.condensed.header ∈ condensedLines (Text.lines text) := List.mem_append_right _
      (List.mem_flatMap.mpr ⟨result.condensed, List.mem_map_of_mem hmem, List.mem_cons_self⟩)
    exact mentions_of_header (infix_of_mem_condensedLines hline)
      (wellFormed_condensed (wellFormed_of_mem hmem)).header

/-- The text has no line break at its ends, and no carriage return in front of one. -/
def Untouched (text : String) : Prop :=
  Text.startsWith text "\n" = false ∧ Text.contains text "\r\n" = false ∧
    Text.endsWith text "\n" = false

/-- A text without results stays exactly where reading and joining its lines gives it back. -/
theorem condensed_eq_self_iff_of_no_results (hne : text ≠ "") (hnone : resultLines (Text.lines text) = []) :
    condenseTextProtocolToolResults text = text ↔ Untouched text := by
  have hblank : blankInFront text = [] :=
    (blankInFront_cases text).resolve_right fun h => h.2.2 hnone
  have hwritten : writtenLines text = (Text.lines text).dropWhile Text.isEmpty := by
    rw [writtenLines, hblank, condensedLines_of_no_results hnone, List.nil_append]
  rw [Untouched, ← Text.rejoins_pieces_iff hne, ← Bool.not_eq_true, Text.startsWith_newline_iff hne,
    ← Text.relined_eq_self_iff, ← Text.lines_eq_relined]
  constructor
  · intro hself
    have hwrittenNe : writtenLines text ≠ [] := fun hnil => hne <| by
      rw [← hself, condenseTextProtocolToolResults_eq, hnil]
      rfl
    have hpieces := pieces_condensed hwrittenNe
    rw [hself, hwritten] at hpieces
    have hlength : (Text.lines text).length ≤ (Text.pieces text).length := by
      rw [Text.lines_eq_relined]
      exact Text.relined_length_le _
    have hall : (Text.lines text).dropWhile Text.isEmpty = Text.lines text :=
      (List.dropWhile_sublist _).eq_of_length_le (hpieces ▸ hlength)
    refine ⟨?_, by rw [hpieces, hall]⟩
    rw [hpieces, ← condensedLines_of_no_results hnone]
    exact head?_condensedLines _
  · rintro ⟨hhead, hlines⟩
    rw [condenseTextProtocolToolResults_eq, hwritten, hlines, dropWhile_isEmpty_eq_self hhead,
      Text.join_pieces]

theorem resultLines_dropWhile (lines : List String) :
    resultLines (lines.dropWhile Text.isEmpty) = resultLines lines := by
  have hblank : ∀ line ∈ lines.takeWhile Text.isEmpty, isHeader line = false := fun line hline => by
    rw [Text.isEmpty_iff.mp (List.mem_takeWhile_imp hline)]
    exact isHeader_empty
  rw [← resultLines_append hblank, List.takeWhile_append_dropWhile]

theorem resultLines_condensed (text : String) :
    resultLines (Text.pieces (condenseTextProtocolToolResults text)) =
      (resultLines (Text.lines text)).map ResultLines.condensed := by
  rw [← resultLines_dropWhile, dropWhile_pieces_condensed, resultLines_condensedLines]

/-! ### One message -/

def isToolResultMessage (message : ApiMessage) : Bool :=
  message.role = "user" && messageContainsToolResult message

def ContentBlock.Kept : ContentBlock → ContentBlock → Prop
  | .toolResult toolUseId content isError, written =>
    ∃ shortened, written = .toolResult toolUseId shortened isError ∧ ContentKept content shortened
  | block, written => written = block

/-- Every result of the message is accounted for in what is written for it. -/
def ApiMessage.ResultsKept (message written : ApiMessage) : Prop :=
  written.role = message.role ∧ written.cacheHint = message.cacheHint ∧
    match message.content, written.content with
    | .text text, .text condensed =>
      List.Forall₂ ResultKept (resultLines (Text.lines text)) (resultLines (Text.pieces condensed))
    | .blocks blocks, .blocks condensed => List.Forall₂ ContentBlock.Kept blocks condensed
    | _, _ => False

def ContentBlock.Plain : ContentBlock → Prop
  | .toolResult _ content _ => PlainContent content
  | _ => True

/-- When condensing the message does what it is for. -/
def ApiMessage.Condensable (message : ApiMessage) : Prop :=
  match message.content with
  | .blocks blocks => ∀ block ∈ blocks, block.Plain
  | .text text =>
    if textProtocolToolResultMessage text then
      (∀ result ∈ resultLines (Text.lines text), result.Plain) ∧ SettledLines (Text.lines text)
    else mentionsToolResult text = true → Untouched text

/-- What condensing is to do to one message. -/
structure CondensesMessage (message : ApiMessage) : Prop where
  other : isToolResultMessage message = false → message.condense mentionsToolResult = message
  result : isToolResultMessage message = true → message.ResultsKept (message.condense mentionsToolResult)
  twice : (message.condense mentionsToolResult).condense mentionsToolResult =
    message.condense mentionsToolResult

theorem ContentBlock.kept_condense_iff (block : ContentBlock) : block.Kept block.condense ↔ block.Plain := by
  cases block with
  | text body | toolUse id name input => exact iff_of_true rfl trivial
  | toolResult toolUseId content isError =>
    rw [Plain, ← contentKept_truncate_iff]
    constructor
    · rintro ⟨shortened, heq, hkept⟩
      cases heq
      exact hkept
    · exact fun hkept => ⟨_, rfl, hkept⟩

theorem ContentBlock.condense_twice (block : ContentBlock) : block.condense.condense = block.condense := by
  cases block with
  | text body | toolUse id name input => rfl
  | toolResult toolUseId content isError =>
    show ContentBlock.toolResult toolUseId (truncateToLines _ _) isError = _
    rw [truncateToLines_twice]
    rfl

theorem ContentBlock.condense_of_not_result {block : ContentBlock} (h : block.isToolResult = false) :
    block.condense = block := by
  cases block with
  | text body | toolUse id name input => rfl
  | toolResult toolUseId content isError => cases h

theorem condense_of_not_user {message : ApiMessage} (h : message.role ≠ "user") :
    message.condense mentionsToolResult = message := if_pos h

theorem condenses_blocks_iff {cacheHint : Option String} {blocks : List ContentBlock} :
    CondensesMessage ⟨"user", .blocks blocks, cacheHint⟩ ↔ ∀ block ∈ blocks, block.Plain := by
  have hcondense : ∀ blocks, ApiMessage.condense mentionsToolResult ⟨"user", .blocks blocks, cacheHint⟩ =
      ⟨"user", .blocks (blocks.map ContentBlock.condense), cacheHint⟩ := fun _ => rfl
  have hresult : isToolResultMessage ⟨"user", .blocks blocks, cacheHint⟩ =
      blocks.any ContentBlock.isToolResult := rfl
  have hkept : ApiMessage.ResultsKept ⟨"user", .blocks blocks, cacheHint⟩
      ⟨"user", .blocks (blocks.map ContentBlock.condense), cacheHint⟩ ↔
        ∀ block ∈ blocks, block.Plain := by
    show (_ ∧ _ ∧ List.Forall₂ _ _ _) ↔ _
    rw [and_iff_right rfl, and_iff_right rfl, List.forall₂_map_right_iff, List.forall₂_same]
    exact forall₂_congr fun block _ => block.kept_condense_iff
  constructor
  · intro h block hblock
    cases hany : blocks.any ContentBlock.isToolResult with
    | true => exact hkept.mp (h.result (hresult.trans hany)) block hblock
    | false =>
      have hnot := List.any_eq_false.mp hany block hblock
      cases block with
      | text body => trivial
      | toolUse id name input => trivial
      | toolResult toolUseId content isError => exact absurd rfl hnot
  · intro hplain
    refine ⟨fun hnone => ?_, fun _ => hkept.mpr hplain, ?_⟩
    · rw [hresult, List.any_eq_false] at hnone
      have hmap : blocks.map ContentBlock.condense = blocks.map id :=
        List.map_congr_left fun block hblock =>
          ContentBlock.condense_of_not_result (Bool.eq_false_iff.mpr (hnone block hblock))
      rw [hcondense, hmap, List.map_id]
    · rw [hcondense, hcondense, List.map_map]
      have htwice : ContentBlock.condense ∘ ContentBlock.condense = ContentBlock.condense :=
        funext ContentBlock.condense_twice
      rw [htwice]

theorem condenses_text_iff {cacheHint : Option String} :
    CondensesMessage ⟨"user", .text text, cacheHint⟩ ↔
      if textProtocolToolResultMessage text then
        (∀ result ∈ resultLines (Text.lines text), result.Plain) ∧ SettledLines (Text.lines text)
      else mentionsToolResult text = true → Untouched text := by
  have hresult : isToolResultMessage ⟨"user", .text text, cacheHint⟩ =
      textProtocolToolResultMessage text := rfl
  have hmention : ∀ text, mentionsToolResult text = true →
      ApiMessage.condense mentionsToolResult ⟨"user", .text text, cacheHint⟩ =
        ⟨"user", .text (condenseTextProtocolToolResults text), cacheHint⟩ := fun _ h => if_pos h
  have hsame : mentionsToolResult text = false →
      ApiMessage.condense mentionsToolResult ⟨"user", .text text, cacheHint⟩ =
        ⟨"user", .text text, cacheHint⟩ := fun h => by
    have hnot : ¬mentionsToolResult text = true := Bool.eq_false_iff.mp h
    exact if_neg hnot
  have hinj : ∀ first second : String,
      (⟨"user", .text first, cacheHint⟩ : ApiMessage) = ⟨"user", .text second, cacheHint⟩ ↔
        first = second := fun first second => by simp
  have htwice : mentionsToolResult text = true →
      (ApiMessage.condense mentionsToolResult
          (ApiMessage.condense mentionsToolResult ⟨"user", .text text, cacheHint⟩) =
        ApiMessage.condense mentionsToolResult ⟨"user", .text text, cacheHint⟩ ↔
          SettledLines (Text.lines text)) := fun h => by
    rw [hmention text h, hmention _ (mentions_condensed h), hinj, condensed_twice_iff,
      rejoins_condensedLines_iff]
  split
  · rename_i hlooks
    have hmentions := mentions_of_toolResultMessage hlooks
    have hkept : ApiMessage.ResultsKept ⟨"user", .text text, cacheHint⟩
        ⟨"user", .text (condenseTextProtocolToolResults text), cacheHint⟩ ↔
          ∀ result ∈ resultLines (Text.lines text), result.Plain := by
      show (_ ∧ _ ∧ List.Forall₂ _ _ _) ↔ _
      rw [and_iff_right rfl, and_iff_right rfl, resultLines_condensed, List.forall₂_map_right_iff,
        List.forall₂_same]
      exact forall₂_congr fun result _ => resultKept_condensed_iff result
    constructor
    · intro h
      have hresults := h.result (hresult.trans hlooks)
      rw [hmention text hmentions] at hresults
      exact ⟨hkept.mp hresults, (htwice hmentions).mp h.twice⟩
    · rintro ⟨hplain, hsettled⟩
      refine ⟨fun hnot => ?_, fun _ => ?_, (htwice hmentions).mpr hsettled⟩
      · rw [hresult, hlooks] at hnot
        cases hnot
      · rw [hmention text hmentions]
        exact hkept.mpr hplain
  · rename_i hnot
    have hlooks : textProtocolToolResultMessage text = false := Bool.eq_false_iff.mpr hnot
    have hvacuous : isToolResultMessage ⟨"user", .text text, cacheHint⟩ = true → False := fun h => by
      rw [hresult, hlooks] at h
      cases h
    cases hmentions : mentionsToolResult text with
    | false =>
      refine iff_of_true ⟨fun _ => hsame hmentions, fun h => (hvacuous h).elim, ?_⟩ nofun
      rw [hsame hmentions, hsame hmentions]
    | true =>
      have hne : text ≠ "" := by
        rintro rfl
        exact absurd hmentions (by decide)
      have hself := condensed_eq_self_iff_of_no_results hne (resultLines_eq_nil hlooks)
      constructor
      · intro h _
        have hsame := h.other (hresult.trans hlooks)
        rw [hmention text hmentions, hinj] at hsame
        exact hself.mp hsame
      · intro huntouched
        have hsame := hself.mpr (huntouched rfl)
        refine ⟨fun _ => ?_, fun h => (hvacuous h).elim, ?_⟩
        · rw [hmention text hmentions, hsame]
        · rw [hmention text hmentions, hsame, hmention text hmentions, hsame]

theorem condensesMessage_iff (message : ApiMessage) :
    CondensesMessage message ↔ (message.role = "user" → message.Condensable) := by
  by_cases hrole : message.role = "user"
  · rw [forall_prop_of_true hrole]
    obtain ⟨role, content, cacheHint⟩ := message
    obtain rfl : role = "user" := hrole
    cases content with
    | text text => exact condenses_text_iff
    | blocks blocks => exact condenses_blocks_iff
  · have hsame := condense_of_not_user hrole
    have hnot : isToolResultMessage message = false := by
      rw [isToolResultMessage, decide_eq_false hrole, Bool.false_and]
    refine iff_of_true ⟨fun _ => hsame, fun h => ?_, by rw [hsame, hsame]⟩ fun h => absurd h hrole
    rw [hnot] at h
    cases h

/-! ### The history -/

/-- The number of messages that `condense_old_tool_results` goes through. -/
def condensedCount (messages : List ApiMessage) (keepTurns : ℕ) : ℕ :=
  let boundary := condenseOldBoundary messages keepTurns
  if messages.length ≤ boundary ∨ boundary = 0 then 0 else boundary

theorem condenseOldToolResults_eq :
    condenseOldToolResults messages keepTurns =
      (messages.take (condensedCount messages keepTurns)).map (ApiMessage.condense mentionsToolResult) ++
        messages.drop (condensedCount messages keepTurns) := by
  rw [condenseOldToolResults, condensedCount]
  by_cases hnone : messages.length ≤ condenseOldBoundary messages keepTurns ∨
      condenseOldBoundary messages keepTurns = 0
  · simp only [if_pos hnone]
    rfl
  · simp only [if_neg hnone]

theorem condensedCount_le : condensedCount messages keepTurns ≤ messages.length := by
  simp only [condensedCount]
  split <;> omega

theorem lastTurnsStart_congr {counts : ApiMessage → Bool} {keepTurns : ℕ} {messages written : List ApiMessage}
    (h : messages.map counts = written.map counts) (userCount : ℕ) :
    lastTurnsStart counts keepTurns userCount messages =
      lastTurnsStart counts keepTurns userCount written := by
  induction messages generalizing written userCount with
  | nil =>
    have hnil : written = [] := List.map_eq_nil_iff.mp h.symm
    rw [hnil]
  | cons message messages ih =>
    cases written with
    | nil => cases h
    | cons first written =>
      rw [List.map_cons, List.map_cons, List.cons.injEq] at h
      have hlength : messages.length = written.length := by
        have := congrArg List.length h.2
        rwa [List.length_map, List.length_map] at this
      rw [lastTurnsStart, lastTurnsStart, h.1, hlength, ih h.2, ih h.2]

/-- Only the roles decide how many messages are old. -/
theorem condensedCount_congr {messages written : List ApiMessage}
    (h : messages.map ApiMessage.role = written.map ApiMessage.role) (keepTurns : ℕ) :
    condensedCount messages keepTurns = condensedCount written keepTurns := by
  have hlength : messages.length = written.length := by
    have := congrArg List.length h
    rwa [List.length_map, List.length_map] at this
  have hcounts : messages.reverse.map (fun message => decide (message.role = "user")) =
      written.reverse.map fun message => decide (message.role = "user") := by
    have hmap := congrArg (fun roles => (roles.map fun role => decide (role = "user")).reverse) h
    simp only [List.map_map, ← List.map_reverse] at hmap
    exact hmap
  rw [condensedCount, condensedCount, condenseOldBoundary, condenseOldBoundary, hlength,
    lastTurnsStart_congr hcounts]

theorem condense_role (isResults : String → Bool) (message : ApiMessage) :
    (message.condense isResults).role = message.role := by
  rw [ApiMessage.condense]
  split
  · rfl
  · split
    · rfl
    · split <;> rfl

theorem condensedCount_condensed :
    condensedCount (condenseOldToolResults messages keepTurns) keepTurns =
      condensedCount messages keepTurns := by
  refine condensedCount_congr ?_ keepTurns
  have hroles : ApiMessage.role ∘ ApiMessage.condense mentionsToolResult = ApiMessage.role :=
    funext (condense_role mentionsToolResult)
  rw [condenseOldToolResults_eq, List.map_append, List.map_map, hroles, ← List.map_append,
    List.take_append_drop]

/-- What condensing is to do to a history: the other messages stay, the results are accounted for,
and the second time changes nothing. -/
structure CondensesResults (messages : List ApiMessage) (keepTurns : ℕ) : Prop where
  others : List.Forall₂ (fun message written => isToolResultMessage message = false →
    written = message) messages (condenseOldToolResults messages keepTurns)
  results : List.Forall₂ (fun message written => isToolResultMessage message = true →
    message.ResultsKept written) (messages.take (condensedCount messages keepTurns))
      ((condenseOldToolResults messages keepTurns).take (condensedCount messages keepTurns))
  twice : condenseOldToolResults (condenseOldToolResults messages keepTurns) keepTurns =
    condenseOldToolResults messages keepTurns

theorem take_condensed :
    (condenseOldToolResults messages keepTurns).take (condensedCount messages keepTurns) =
      (messages.take (condensedCount messages keepTurns)).map (ApiMessage.condense mentionsToolResult) := by
  rw [condenseOldToolResults_eq, List.take_left']
  rw [List.length_map, List.length_take, Nat.min_eq_left (condensedCount_le _ _)]

theorem drop_condensed :
    (condenseOldToolResults messages keepTurns).drop (condensedCount messages keepTurns) =
      messages.drop (condensedCount messages keepTurns) := by
  rw [condenseOldToolResults_eq, List.drop_left']
  rw [List.length_map, List.length_take, Nat.min_eq_left (condensedCount_le _ _)]

theorem condensesResults_iff_messages :
    CondensesResults messages keepTurns ↔
      ∀ message ∈ messages.take (condensedCount messages keepTurns), CondensesMessage message := by
  have htwice : condenseOldToolResults (condenseOldToolResults messages keepTurns) keepTurns =
        condenseOldToolResults messages keepTurns ↔
      ∀ message ∈ messages.take (condensedCount messages keepTurns),
        (message.condense mentionsToolResult).condense mentionsToolResult =
          message.condense mentionsToolResult := by
    rw [condenseOldToolResults_eq (condenseOldToolResults messages keepTurns),
      condensedCount_condensed, take_condensed, drop_condensed, condenseOldToolResults_eq messages,
      List.append_cancel_right_eq, List.map_map]
    exact List.map_inj_left
  constructor
  · intro h message hmessage
    have hothers := List.forall₂_take (condensedCount messages keepTurns) h.others
    have hresults := h.results
    rw [take_condensed, List.forall₂_map_right_iff, List.forall₂_same] at hothers hresults
    exact ⟨hothers message hmessage, hresults message hmessage, htwice.mp h.twice message hmessage⟩
  · intro h
    refine ⟨?_, ?_, htwice.mpr fun message hmessage => (h message hmessage).twice⟩
    · rw [condenseOldToolResults_eq]
      have hold : List.Forall₂ (fun message written => isToolResultMessage message = false →
          written = message) (messages.take (condensedCount messages keepTurns))
            ((messages.take (condensedCount messages keepTurns)).map
              (ApiMessage.condense mentionsToolResult)) := by
        rw [List.forall₂_map_right_iff, List.forall₂_same]
        exact fun message hmessage => (h message hmessage).other
      have hrecent : List.Forall₂ (fun message written => isToolResultMessage message = false →
          written = message) (messages.drop (condensedCount messages keepTurns))
            (messages.drop (condensedCount messages keepTurns)) :=
        List.forall₂_same.mpr fun message _ _ => rfl
      have hboth := List.rel_append hold hrecent
      beta_reduce at hboth
      rwa [List.take_append_drop] at hboth
    · rw [take_condensed, List.forall₂_map_right_iff, List.forall₂_same]
      exact fun message hmessage => (h message hmessage).result

/-- The old tool results are condensed as they should be exactly when every old message of the user
is condensable. -/
theorem condenses_old_results_iff (messages : List ApiMessage) (keepTurns : ℕ) :
    CondensesResults messages keepTurns ↔
      ∀ message ∈ messages.take (condensedCount messages keepTurns),
        message.role = "user" → message.Condensable := by
  rw [condensesResults_iff_messages]
  exact forall₂_congr fun message _ => condensesMessage_iff message

def mentioningHistory : List ApiMessage :=
  [userText "Where is\r\nthe tool_result line written?", assistantText "In the history.",
    userText "And read?", assistantText "There too.", userText "Thanks."]

/-- A question about tool results loses a carriage return two turns later. -/
theorem mentioning_prompt_rewritten :
    condenseOldToolResults mentioningHistory 2 =
        userText "Where is\nthe tool_result line written?" :: mentioningHistory.tail ∧
      ¬CondensesResults mentioningHistory 2 := by
  have hcondensed : condenseOldToolResults mentioningHistory 2 =
      userText "Where is\nthe tool_result line written?" :: mentioningHistory.tail := by
    decide +kernel
  refine ⟨hcondensed, fun h => ?_⟩
  have hothers := h.others
  rw [hcondensed] at hothers
  cases hothers with
  | cons hfirst _ => exact absurd (hfirst (by decide +kernel)) (by decide)

end Vexcoder.Conversation

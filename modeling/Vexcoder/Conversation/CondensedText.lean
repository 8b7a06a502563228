import Vexcoder.Base.Lines
import Vexcoder.Conversation.History

/-!
# A condensed text

`condense_text_protocol_tool_results` reads the lines of a text one after the other and writes to a
buffer.  Here the lines are taken apart first: those in front of the first header, and for every
header the lines up to the next one.  The text that the loop writes is what is kept of each part,
with a report behind every result that lost lines.
-/

namespace Vexcoder.Conversation

open Base CondenseState

/-! ### The results in a text -/

def isHeader (line : String) : Bool :=
  Text.startsWith line "tool_result " || Text.startsWith line "tool_error "

/-- The shape by which the loop takes a line for an earlier report. -/
def isMarker (line : String) : Bool :=
  Text.endsWith line "more lines)" && Text.startsWith line "("

structure ResultLines where
  header : String
  body : List String

def ResultLines.lines (result : ResultLines) : List String := result.header :: result.body

def linesBefore (lines : List String) : List String := lines.takeWhile (!isHeader ·)

def resultLines : List String → List ResultLines
  | [] => []
  | line :: lines =>
    if isHeader line then { header := line, body := linesBefore lines } :: resultLines lines
    else resultLines lines

theorem linesBefore_append_results (lines : List String) :
    linesBefore lines ++ (resultLines lines).flatMap ResultLines.lines = lines := by
  induction lines with
  | nil => rfl
  | cons line lines ih =>
    rw [linesBefore, resultLines]
    by_cases hheader : isHeader line = true
    · rw [List.takeWhile_cons_of_neg (by simp [hheader]), if_pos hheader, List.flatMap_cons,
        List.nil_append, ResultLines.lines, List.cons_append, ih]
    · rw [List.takeWhile_cons_of_pos (by simp [hheader]), if_neg hheader]
      exact congrArg (line :: ·) ih

/-- A result as the lines of a text show it. -/
structure ResultLines.WellFormed (result : ResultLines) : Prop where
  header : isHeader result.header = true
  body : ∀ line ∈ result.body, isHeader line = false

variable {lines front : List String} {line : String} {results : List ResultLines} {s : CondenseState}

theorem isHeader_of_mem_linesBefore (h : line ∈ linesBefore lines) : isHeader line = false := by
  have := List.mem_takeWhile_imp h
  simpa using this

theorem wellFormed_of_mem {result : ResultLines} (h : result ∈ resultLines lines) :
    result.WellFormed := by
  induction lines with
  | nil => cases h
  | cons line lines ih =>
    rw [resultLines] at h
    split at h
    · rename_i hheader
      rcases List.mem_cons.mp h with rfl | h
      · exact ⟨hheader, fun line hline => isHeader_of_mem_linesBefore hline⟩
      · exact ih h
    · exact ih h

theorem linesBefore_append {rest : List String} (h : ∀ line ∈ front, isHeader line = false) :
    linesBefore (front ++ rest) = front ++ linesBefore rest :=
  List.takeWhile_append_of_pos fun line hline => by rw [h line hline]; rfl

theorem resultLines_append {rest : List String} (h : ∀ line ∈ front, isHeader line = false) :
    resultLines (front ++ rest) = resultLines rest := by
  induction front with
  | nil => rfl
  | cons line front ih =>
    rw [List.cons_append, resultLines, h line List.mem_cons_self]
    exact ih fun line hline => h line (List.mem_cons_of_mem _ hline)

theorem linesBefore_flatMap (h : ∀ r ∈ results, r.WellFormed) :
    linesBefore (results.flatMap ResultLines.lines) = [] := by
  cases results with
  | nil => rfl
  | cons result results =>
    rw [List.flatMap_cons, ResultLines.lines, List.cons_append, linesBefore,
      List.takeWhile_cons_of_neg (by simp [(h result List.mem_cons_self).header])]

theorem resultLines_flatMap (h : ∀ r ∈ results, r.WellFormed) :
    resultLines (results.flatMap ResultLines.lines) = results := by
  induction results with
  | nil => rfl
  | cons result results ih =>
    have hresult := h result List.mem_cons_self
    have hrest : ∀ r ∈ results, r.WellFormed := fun r hr => h r (List.mem_cons_of_mem _ hr)
    rw [List.flatMap_cons, ResultLines.lines, List.cons_append, resultLines, if_pos hresult.header,
      linesBefore_append hresult.body, linesBefore_flatMap hrest, resultLines_append hresult.body,
      ih hrest, List.append_nil]

/-! ### What is kept of a result -/

/-- The markers, and the first `room` of the other lines. -/
def keptBody : ℕ → List String → List String
  | _, [] => []
  | room, line :: body =>
    if isMarker line then line :: keptBody room body
    else if 0 < room then line :: keptBody (room - 1) body
    else keptBody 0 body

def plainCount (body : List String) : ℕ := body.countP (!isMarker ·)

def report (hidden : ℕ) : String := "(" ++ toString hidden ++ " more lines)"

def ResultLines.hidden (result : ResultLines) : ℕ :=
  plainCount result.body - condensedToolResultLines

def ResultLines.kept (result : ResultLines) : ResultLines :=
  { result with body := keptBody condensedToolResultLines result.body }

def ResultLines.condensed (result : ResultLines) : ResultLines :=
  if result.hidden = 0 then result.kept
  else { result with body := result.kept.body ++ [report result.hidden] }

def condensedLines (lines : List String) : List String :=
  (linesBefore lines).dropWhile Text.isEmpty ++
    ((resultLines lines).map ResultLines.condensed).flatMap ResultLines.lines

/-! ### The loop -/

def brokenLines : List String → String
  | [] => ""
  | line :: lines => "\n" ++ line ++ brokenLines lines

theorem brokenLines_append (front rest : List String) :
    brokenLines (front ++ rest) = brokenLines front ++ brokenLines rest := by
  induction front with
  | nil => exact String.empty_append.symm
  | cons line front ih =>
    show "\n" ++ line ++ brokenLines (front ++ rest) = "\n" ++ line ++ brokenLines front ++ _
    rw [ih, ← String.append_assoc]

theorem brokenLines_cons (line : String) (lines : List String) :
    brokenLines (line :: lines) = "\n" ++ Text.join "\n" (line :: lines) := by
  induction lines generalizing line with
  | nil =>
    show "\n" ++ line ++ "" = "\n" ++ line
    exact String.append_empty
  | cons next lines ih =>
    show "\n" ++ line ++ brokenLines (next :: lines) =
      "\n" ++ (line ++ "\n" ++ Text.join "\n" (next :: lines))
    rw [ih, String.append_assoc, String.append_assoc]

theorem join_append_brokenLines (h : front ≠ []) (rest : List String) :
    Text.join "\n" front ++ brokenLines rest = Text.join "\n" (front ++ rest) := by
  cases front with
  | nil => exact absurd rfl h
  | cons line front =>
    have heq : "\n" ++ (Text.join "\n" (line :: front) ++ brokenLines rest) =
        "\n" ++ Text.join "\n" (line :: front ++ rest) := by
      rw [← String.append_assoc, ← brokenLines_cons, ← brokenLines_append, List.cons_append, brokenLines_cons]
    exact (String.append_right_inj "\n").mp heq

theorem isMarker_of_isHeader (h : isHeader line = true) : isMarker line = false := by
  rw [isMarker, Bool.and_eq_false_iff]
  right
  rw [← Bool.not_eq_true, Text.startsWith, List.isPrefixOf_iff_prefix]
  rw [isHeader, Bool.or_eq_true, Text.startsWith, Text.startsWith, List.isPrefixOf_iff_prefix,
    List.isPrefixOf_iff_prefix] at h
  rintro ⟨t, ht⟩
  rcases h with ⟨u, hu⟩ | ⟨u, hu⟩
  all_goals
    rw [← hu] at ht
    exact absurd (Option.some.inj (congrArg List.head? ht)) (by decide)

theorem condenseLine_before (hs : s.inToolResult = false) (hline : isHeader line = false) :
    condenseLine s line = s.pushPlain line := by
  have hheader : (Text.startsWith line "tool_result " || Text.startsWith line "tool_error ") = false :=
    hline
  simp [condenseLine, hs, hheader]

/-- In front of the first header the loop writes the lines from the first on that is not empty. -/
theorem foldl_before (h : ∀ line ∈ lines, isHeader line = false) :
    lines.foldl condenseLine {} =
      { out := Text.join "\n" (lines.dropWhile Text.isEmpty) } := by
  -- once there is something in the buffer, every line follows a line break
  have hmore : ∀ (lines : List String) (out : String), (∀ line ∈ lines, isHeader line = false) →
      Text.isEmpty out = false → lines.foldl condenseLine { out } = { out := out ++ brokenLines lines } := by
    intro lines
    induction lines with
    | nil => exact fun out _ _ => by rw [brokenLines, String.append_empty]; rfl
    | cons line lines ih =>
      intro out hlines hout
      have hline := condenseLine_before (s := { out }) rfl (hlines line List.mem_cons_self)
      have hpush : pushPlain { out } line = { out := out ++ "\n" ++ line } := by
        rw [pushPlain, if_neg (by rw [hout]; exact Bool.false_ne_true)]
        rfl
      have hnonempty : Text.isEmpty (out ++ "\n" ++ line) = false := by
        simp [Text.isEmpty]
      rw [List.foldl_cons, hline, hpush,
        ih _ (fun line hl => hlines line (List.mem_cons_of_mem _ hl)) hnonempty, brokenLines]
      simp only [String.append_assoc]
  induction lines with
  | nil => rfl
  | cons line lines ih =>
    have hline := condenseLine_before (s := {}) rfl (h line List.mem_cons_self)
    have hrest : ∀ line ∈ lines, isHeader line = false := fun l hl => h l (List.mem_cons_of_mem _ hl)
    have hpush : pushPlain {} line = { out := line } := by
      show mk ("" ++ line) 0 0 false = _
      rw [String.empty_append]
    rw [List.foldl_cons, hline, hpush]
    cases hempty : Text.isEmpty line with
    | true =>
      obtain rfl : line = "" := String.toList_inj.mp (List.isEmpty_iff.mp hempty)
      exact ih hrest
    | false =>
      rw [List.dropWhile_cons_of_neg (by rw [hempty]; exact Bool.false_ne_true),
        hmore lines line hrest hempty]
      have hone := join_append_brokenLines (List.cons_ne_nil line []) lines
      rw [show Text.join "\n" [line] = line from rfl] at hone
      rw [hone]
      rfl

theorem condenseLine_header (hline : isHeader line = true)
    (hs : s.inToolResult = false → s.totalRemaining = 0) :
    condenseLine s line = { out := s.flush.out ++ "\n" ++ line, inToolResult := true } := by
  have hmarker : (Text.endsWith line "more lines)" && Text.startsWith line "(") = false :=
    isMarker_of_isHeader hline
  have hheader : (Text.startsWith line "tool_result " || Text.startsWith line "tool_error ") = true :=
    hline
  obtain ⟨out, count, remaining, inResult⟩ := s
  cases inResult with
  | false =>
    obtain rfl : remaining = 0 := hs rfl
    simp [condenseLine, hmarker, hheader, flush, pushLine]
  | true =>
    by_cases hpos : 0 < remaining
    · simp [condenseLine, hmarker, hheader, flush, pushLine, hpos]
    · obtain rfl : remaining = 0 := Nat.eq_zero_of_not_pos hpos
      simp [condenseLine, hmarker, hheader, flush, pushLine]

theorem condenseLine_body {out : String} {count remaining : ℕ} (hline : isHeader line = false) :
    condenseLine ⟨out, count, remaining, true⟩ line =
      if isMarker line then ⟨out ++ "\n" ++ line, count, remaining, true⟩
      else if count + 1 ≤ condensedToolResultLines then
        ⟨out ++ "\n" ++ line, count + 1, remaining, true⟩
      else ⟨out, count + 1, remaining + 1, true⟩ := by
  have hheader : (Text.startsWith line "tool_result " || Text.startsWith line "tool_error ") = false :=
    hline
  rw [isMarker]
  simp only [condenseLine, hheader, pushLine]
  split <;> rfl

theorem plainCount_cons (line : String) (body : List String) :
    plainCount (line :: body) = plainCount body + if isMarker line then 0 else 1 := by
  rw [plainCount, List.countP_cons]
  cases isMarker line <;> rfl

/-- The loop over the lines of one result: `count` of them came before. -/
theorem foldl_body {body : List String} (h : ∀ line ∈ body, isHeader line = false)
    (out : String) (count remaining : ℕ) :
    body.foldl condenseLine ⟨out, count, remaining, true⟩ =
      { out := out ++ brokenLines (keptBody (condensedToolResultLines - count) body)
        contentLinesSinceHeader := count + plainCount body
        totalRemaining := remaining + (plainCount body - (condensedToolResultLines - count))
        inToolResult := true } := by
  induction body generalizing out count remaining with
  | nil =>
    show mk out count remaining true = ⟨out ++ "", count + 0, remaining + (0 - _), true⟩
    rw [String.append_empty, Nat.zero_sub]
    rfl
  | cons line body ih =>
    have hrest : ∀ l ∈ body, isHeader l = false := fun l hl => h l (List.mem_cons_of_mem _ hl)
    rw [List.foldl_cons, condenseLine_body (h line List.mem_cons_self), plainCount_cons, keptBody]
    by_cases hmarker : isMarker line = true
    · rw [if_pos hmarker, if_pos hmarker, if_pos hmarker, ih hrest, brokenLines, Nat.add_zero]
      simp only [String.append_assoc]
    rw [if_neg hmarker, if_neg hmarker, if_neg hmarker]
    by_cases hroom : count + 1 ≤ condensedToolResultLines
    · have hpos : 0 < condensedToolResultLines - count := by omega
      rw [if_pos hroom, if_pos hpos, ih hrest, brokenLines]
      have hsub : condensedToolResultLines - count - 1 = condensedToolResultLines - (count + 1) := by
        omega
      rw [hsub]
      simp only [String.append_assoc, mk.injEq, true_and, and_true]
      omega
    · have hpos : ¬0 < condensedToolResultLines - count := by omega
      have hzero : condensedToolResultLines - (count + 1) = 0 := by omega
      rw [if_neg hroom, if_neg hpos, ih hrest, hzero]
      simp only [mk.injEq, true_and, and_true]
      omega

/-- The loop over one result, and what is written before the next header. -/
theorem foldl_result {result : ResultLines} (h : result.WellFormed)
    (hs : s.inToolResult = false → s.totalRemaining = 0) :
    let s' := result.lines.foldl condenseLine s
    s'.inToolResult = true ∧ s'.flush.out = s.flush.out ++ brokenLines result.condensed.lines := by
  have hrun : result.lines.foldl condenseLine s =
      { out := s.flush.out ++ brokenLines result.kept.lines
        contentLinesSinceHeader := plainCount result.body
        totalRemaining := result.hidden
        inToolResult := true } := by
    rw [ResultLines.lines, List.foldl_cons, condenseLine_header h.header hs, foldl_body h.body,
      ResultLines.hidden, ResultLines.kept, ResultLines.lines, brokenLines, Nat.sub_zero]
    simp only [String.append_assoc, Nat.zero_add]
  rw [hrun]
  refine ⟨rfl, ?_⟩
  rw [flush, ResultLines.condensed]
  by_cases hhidden : result.hidden = 0
  · simp [hhidden]
  have hpos : 0 < result.hidden := Nat.pos_of_ne_zero hhidden
  have hlines : ResultLines.lines
      { result with body := result.kept.body ++ [report result.hidden] } =
        result.kept.lines ++ [report result.hidden] := rfl
  rw [if_pos (by simp [hpos]), if_neg hhidden, hlines, brokenLines_append]
  simp [pushLine, report, brokenLines, String.append_assoc]

theorem foldl_results (h : ∀ r ∈ results, r.WellFormed) (hs : s.inToolResult = false → s.totalRemaining = 0) :
    ((results.flatMap ResultLines.lines).foldl condenseLine s).flush.out =
      s.flush.out ++ brokenLines ((results.map ResultLines.condensed).flatMap ResultLines.lines) := by
  induction results generalizing s with
  | nil => exact String.append_empty.symm
  | cons result results ih =>
    obtain ⟨hin, hout⟩ := foldl_result (h result List.mem_cons_self) hs
    rw [List.flatMap_cons, List.foldl_append, ih (fun r hr => h r (List.mem_cons_of_mem _ hr))
      (fun hfalse => absurd (hin.symm.trans hfalse) (by decide)), hout, List.map_cons,
      List.flatMap_cons, brokenLines_append, String.append_assoc]

theorem foldl_lines (lines : List String) :
    (lines.foldl condenseLine {}).flush.out =
      Text.join "\n" ((linesBefore lines).dropWhile Text.isEmpty) ++
        brokenLines (((resultLines lines).map ResultLines.condensed).flatMap ResultLines.lines) := by
  calc (lines.foldl condenseLine {}).flush.out
      = ((linesBefore lines ++ (resultLines lines).flatMap ResultLines.lines).foldl
          condenseLine {}).flush.out := by rw [linesBefore_append_results]
    _ = (((resultLines lines).flatMap ResultLines.lines).foldl condenseLine
          { out := Text.join "\n" ((linesBefore lines).dropWhile Text.isEmpty) }).flush.out := by
        rw [List.foldl_append, foldl_before fun line h => isHeader_of_mem_linesBefore h]
    _ = _ := foldl_results (fun r hr => wellFormed_of_mem hr) fun _ => rfl

/-! ### What is kept -/

theorem keptBody_sublist (room : ℕ) (body : List String) : (keptBody room body).Sublist body := by
  induction body generalizing room with
  | nil => exact List.Sublist.refl _
  | cons line body ih =>
    rw [keptBody]
    split
    · exact (ih room).cons_cons line
    · split
      · exact (ih (room - 1)).cons_cons line
      · exact (ih 0).cons line

theorem keptBody_eq_self {room : ℕ} {body : List String} (h : plainCount body ≤ room) :
    keptBody room body = body := by
  induction body generalizing room with
  | nil => rfl
  | cons line body ih =>
    rw [plainCount_cons] at h
    rw [keptBody]
    split
    · rename_i hmarker
      rw [if_pos hmarker] at h
      rw [ih h]
    · rename_i hmarker
      rw [if_neg hmarker] at h
      rw [if_pos (by omega), ih (by omega)]

theorem plainCount_keptBody (room : ℕ) (body : List String) :
    plainCount (keptBody room body) = min room (plainCount body) := by
  induction body generalizing room with
  | nil => exact (Nat.min_zero room).symm
  | cons line body ih =>
    rw [keptBody, plainCount_cons]
    by_cases hmarker : isMarker line = true
    · rw [if_pos hmarker, plainCount_cons, if_pos hmarker, ih, Nat.add_zero, Nat.add_zero]
    rw [if_neg hmarker]
    split
    · rw [plainCount_cons, if_neg hmarker, ih]
      omega
    · rw [ih]
      omega

theorem length_keptBody (room : ℕ) (body : List String) :
    (keptBody room body).length + (plainCount body - room) = body.length := by
  induction body generalizing room with
  | nil =>
    show 0 + (0 - room) = 0
    omega
  | cons line body ih =>
    rw [keptBody, plainCount_cons]
    by_cases hmarker : isMarker line = true
    · have := ih room
      rw [if_pos hmarker, if_pos hmarker, List.length_cons, List.length_cons]
      omega
    · rw [if_neg hmarker]
      split
      · have := ih (room - 1)
        rw [List.length_cons, List.length_cons]
        omega
      · have := ih 0
        rw [List.length_cons]
        omega

theorem toList_report (hidden : ℕ) :
    (report hidden).toList = '(' :: (Nat.toDigits 10 hidden ++ " more lines)".toList) := by
  rw [report, String.toList_append, String.toList_append, Nat.toString_eq_repr, Nat.toList_repr]
  rfl

theorem not_mem_report {c : Char} (hc : c = '\n' ∨ c = '\r') (hidden : ℕ) : c ∉ (report hidden).toList := by
  rw [toList_report, List.mem_cons, List.mem_append]
  rintro (h | h | h)
  · rcases hc with rfl | rfl <;> cases h
  · have hdigit := Nat.isDigit_of_mem_toDigits (by decide) (by decide) h
    rcases hc with rfl | rfl <;> exact absurd hdigit (by decide)
  · rcases hc with rfl | rfl <;> exact absurd h (by decide)

theorem isMarker_report (hidden : ℕ) : isMarker (report hidden) = true := by
  rw [isMarker, Bool.and_eq_true, Text.endsWith, Text.startsWith, List.isSuffixOf_iff_suffix,
    List.isPrefixOf_iff_prefix, toList_report]
  refine ⟨?_, ⟨_, rfl⟩⟩
  exact ⟨'(' :: (Nat.toDigits 10 hidden ++ [' ']), by simp⟩

theorem isHeader_report (hidden : ℕ) : isHeader (report hidden) = false := by
  rw [← Bool.not_eq_true]
  intro h
  exact absurd (isMarker_report hidden) (by rw [isMarker_of_isHeader h]; decide)

theorem report_ne_empty (hidden : ℕ) : report hidden ≠ "" := fun h => by
  have := congrArg String.toList h
  rw [toList_report] at this
  cases this

/-! ### The text that is written -/

theorem ne_empty_of_isHeader (h : isHeader line = true) : line ≠ "" := by
  rintro rfl
  exact absurd h (by decide)

theorem mem_condensedLines (h : line ∈ condensedLines lines) :
    line ∈ lines ∨ ∃ hidden, line = report hidden := by
  rcases List.mem_append.mp h with h | h
  · left
    rw [← linesBefore_append_results lines]
    exact List.mem_append_left _ ((List.dropWhile_sublist _).subset h)
  · obtain ⟨condensed, hcondensed, hline⟩ := List.mem_flatMap.mp h
    obtain ⟨result, hresult, rfl⟩ := List.mem_map.mp hcondensed
    have hsub : ∀ l ∈ result.lines, l ∈ lines := fun l hl => by
      rw [← linesBefore_append_results lines]
      exact List.mem_append_right _ (List.mem_flatMap.mpr ⟨result, hresult, hl⟩)
    have hkept : ∀ l ∈ result.kept.lines, l ∈ lines := fun l hl =>
      hsub l (((keptBody_sublist _ result.body).cons_cons result.header).subset hl)
    rw [ResultLines.condensed] at hline
    split at hline
    · exact Or.inl (hkept line hline)
    · have hline' : line ∈ result.kept.lines ++ [report result.hidden] := hline
      rcases List.mem_append.mp hline' with hl | hl
      · exact Or.inl (hkept line hl)
      · exact Or.inr ⟨_, List.mem_singleton.mp hl⟩

theorem newline_not_mem_condensedLines {text : String} (h : line ∈ condensedLines (Text.lines text)) :
    '\n' ∉ line.toList := by
  rcases mem_condensedLines h with hline | ⟨hidden, rfl⟩
  · exact Text.newline_not_mem_of_mem_lines hline
  · exact not_mem_report (Or.inl rfl) hidden

/-- The first line that is kept is not empty. -/
theorem head?_condensedLines (lines : List String) : (condensedLines lines).head? ≠ some "" := by
  rw [condensedLines]
  cases hbefore : (linesBefore lines).dropWhile Text.isEmpty with
  | cons line before =>
    intro hhead
    have hempty : Text.isEmpty line = false := by
      have hfirst := List.head?_dropWhile_not Text.isEmpty (linesBefore lines)
      rw [hbefore] at hfirst
      exact hfirst
    have hline : line = "" := Option.some.inj hhead
    rw [hline] at hempty
    exact absurd hempty (by decide)
  | nil =>
    cases hresults : resultLines lines with
    | nil => nofun
    | cons result results =>
      have hheader := (wellFormed_of_mem (hresults ▸ List.mem_cons_self)).header
      have hsame : result.condensed.header = result.header := by
        rw [ResultLines.condensed]
        split <;> rfl
      intro hhead
      have hline : result.condensed.header = "" := Option.some.inj hhead
      exact ne_empty_of_isHeader hheader (hsame.symm.trans hline)

theorem startsWith_join {K : List String} (hK : ∀ l ∈ K, '\n' ∉ l.toList) (hhead : K.head? ≠ some "") :
    Text.startsWith (Text.join "\n" K) "\n" = false := by
  by_cases hne : Text.join "\n" K = ""
  · rw [hne]
    rfl
  · have hnil : K ≠ [] := fun h => hne (by rw [h]; rfl)
    rw [← Bool.not_eq_true, Text.startsWith_newline_iff hne, Text.pieces_join hnil hK]
    exact hhead

/-- An empty line in front of the first header stays where the text begins with one. -/
def blankInFront (text : String) : List String :=
  if Text.startsWith text "\n" && (linesBefore (Text.lines text)).all Text.isEmpty &&
      !(resultLines (Text.lines text)).isEmpty then [""]
  else []

def writtenLines (text : String) : List String :=
  blankInFront text ++ condensedLines (Text.lines text)

theorem condenseTextProtocolToolResults_eq (text : String) :
    condenseTextProtocolToolResults text = Text.join "\n" (writtenLines text) := by
  have hfree : ∀ l ∈ condensedLines (Text.lines text), '\n' ∉ l.toList := fun l hl =>
    newline_not_mem_condensedLines hl
  have hstart := startsWith_join hfree (head?_condensedLines _)
  rw [condenseTextProtocolToolResults, foldl_lines, writtenLines, blankInFront]
  by_cases hbefore : (linesBefore (Text.lines text)).dropWhile Text.isEmpty = []
  · have hall : (linesBefore (Text.lines text)).all Text.isEmpty = true :=
      List.all_eq_true.mpr (List.dropWhile_eq_nil_iff.mp hbefore)
    rw [condensedLines, hbefore] at hstart ⊢
    cases hresults : resultLines (Text.lines text) with
    | nil =>
      rw [List.isEmpty_nil, Bool.not_true, Bool.and_false]
      rfl
    | cons result results =>
      have hlines : ((result :: results).map ResultLines.condensed).flatMap ResultLines.lines =
          result.condensed.header :: (result.condensed.body ++
            (results.map ResultLines.condensed).flatMap ResultLines.lines) := rfl
      rw [hlines, brokenLines_cons, hall, List.isEmpty_cons, Bool.and_true]
      cases hfront : Text.startsWith text "\n" with
      | true => simp [Text.join]
      | false => simp [Text.join, Text.startsWith]
  · have hall : (linesBefore (Text.lines text)).all Text.isEmpty = false := by
      rw [← Bool.not_eq_true, List.all_eq_true]
      exact fun h => hbefore (List.dropWhile_eq_nil_iff.mpr h)
    rw [join_append_brokenLines hbefore, ← condensedLines, hstart, hall, Bool.and_false,
      Bool.false_and, Bool.false_and, if_neg Bool.false_ne_true, if_neg Bool.false_ne_true,
      List.nil_append]

end Vexcoder.Conversation

import Vexcoder.App.TranscriptRows

/-!
# Rows of the width of the terminal

A row that is wider than the terminal is wrapped into several, unless its text has a structure that
wrapping would destroy: a list item, a rule, a bracketed line.  The widths of characters, the graphemes
of a text, the wrapping and the reading of escape sequences are those of the libraries.
-/

namespace Vexcoder.App

open Base Lib

structure Display where
  /-- `UnicodeWidthChar::width`, 0 for a control character. -/
  charDisplayWidth : Char → ℕ
  /-- `graphemes(true)` -/
  graphemes : String → List String
  /-- `UnicodeWidthStr::width` -/
  strWidth : String → ℕ
  /-- `textwrap::wrap` without hyphenation and without breaking words. -/
  wrap : String → ℕ → List String
  /-- `into_text`: the contents of the spans of each line. -/
  intoText : String → Option (List (List String))

def toolMarker : String := "  * "

def errorMarker : String := "  x "

def evidenceMarker : String := "      - "

variable (disp : Display)

def Display.displayWidth (text : String) : ℕ := ((disp.graphemes text).map disp.strWidth).sum

/-! ### Texts with a structure -/

/-- The digits in front are bytes of their own, and so are the mark and the blank behind them. -/
def parseNumberedListItem (line : String) : Option (Option (String × String × ℕ)) :=
  let bytes := byteLen line.toList
  let index := (line.toList.takeWhile Char.isDigit).length
  if index = 0 ∨ index ≥ bytes - 1 then some none
  else
    match line.toList.drop index with
    | mark :: blank :: _ =>
      if (mark = '.' ∨ mark = ')') ∧ blank = ' ' then do
        let head ← sliceTo (index + 2) line.toList
        let rest ← sliceFrom (index + 2) line.toList
        some (some (String.ofList head, String.ofList rest, disp.displayWidth (String.ofList head)))
      else some none
    | _ => some none

/-- `ch as u8` is the low byte of the character. -/
def isHorizontalRule (line : String) : Bool :=
  let trimmed := trim line.toList
  if byteLen trimmed < 3 then false
  else
    match trimmed with
    | [] => false
    | first :: _ =>
      if first ≠ '-' ∧ first ≠ '*' ∧ first ≠ '_' then false
      else
        let markCount := trimmed.countP fun ch => ch.toNat % 256 = first.toNat
        let spaceCount := trimmed.count ' '
        markCount ≥ 3 && markCount + spaceCount = byteLen trimmed

def isInlineTelemetrySummary (line : String) : Bool :=
  Text.startsWith line "[" && Text.endsWith line "]" && Text.contains line "total:"

def isTelemetrySummary (line : String) : Bool :=
  let trimmed := Text.trim line
  Text.startsWith trimmed "[" && Text.endsWith trimmed "]" &&
    (Text.contains trimmed "total:" || Text.contains trimmed "ttft:")

def isStructuralPlainStr (line : String) : Option Bool :=
  if Text.startsWith line "[" || Text.startsWith line "    " || Text.startsWith line "  " ||
      Text.startsWith line "```" || (Text.startsWith line "--- " && Text.endsWith line " ---") ||
      isHorizontalRule line || Text.startsWith line "> " || isTelemetrySummary line ||
      isInlineTelemetrySummary line || Text.startsWith line "# " || Text.startsWith line "## " ||
      Text.startsWith line "### " || Text.startsWith line "- " || Text.startsWith line "* " then
    some true
  else (parseNumberedListItem disp line).map Option.isSome

def isStructuralTranscriptRow : TranscriptRow → Option Bool
  | .waitingPlaceholder _ => some true
  | .plain text => isStructuralPlainStr disp text
  | .toolHeader _ | .toolDetail _ | .evidence _ | .error _ | .userInput _ | .assistantText .. =>
    some false

/-! ### Wrapping -/

def containsAnsiEscape (text : String) : Bool := text.toList.contains '\x1b'

/-- What the last carriage return of each line leaves. -/
def stripOverstrike (text : String) : String :=
  if text.toList.contains '\r' then
    Text.join "\n" ((splitOn '\n' text.toList).map fun segment =>
      String.ofList ((splitOn '\r' segment).getLastD segment))
  else text

def visibleDisplayWidth (text : String) : ℕ :=
  if containsAnsiEscape text then
    let cleaned := stripOverstrike text
    match disp.intoText cleaned with
    | some lines => ((lines.map fun spans => (spans.map disp.displayWidth).sum).max?).getD 0
    | none => disp.displayWidth cleaned
  else disp.displayWidth text

/-- The loop of `truncate_to_display_width`. -/
def truncateGraphemes (maxWidth : ℕ) : ℕ → List String → String → String
  | _, [], out => out
  | used, grapheme :: graphemes, out =>
    let width := disp.strWidth grapheme
    if used + width > maxWidth ∧ used > 0 then out
    else truncateGraphemes maxWidth (used + width) graphemes (out ++ grapheme)

def truncateToDisplayWidth (text : String) (maxWidth : ℕ) : String :=
  truncateGraphemes disp maxWidth 0 (disp.graphemes text) ""

/-- The loop of `truncate_line`: what fits, and whether something does not. -/
def fittingChars (width : ℕ) : ℕ → List Char → List Char → List Char × Bool
  | _, [], out => (out, false)
  | used, ch :: chars, out =>
    let chWidth := disp.charDisplayWidth ch
    if used + chWidth > width then (out, true)
    else fittingChars width (used + chWidth) chars (out ++ [ch])

def truncateLine (input : String) (width : ℕ) : String :=
  let width := max width 1
  let (out, clipped) := fittingChars disp width 0 input.toList []
  if clipped ∧ width ≥ 4 then truncateToDisplayWidth disp (String.ofList out) (width - 3) ++ "..."
  else String.ofList out

def wordWrapToCols (text : String) (cols : ℕ) : List String :=
  if cols = 0 then [text]
  else
    let wrapped := disp.wrap text cols
    if wrapped.isEmpty then [""]
    else
      wrapped.map fun segment =>
        if disp.displayWidth segment > cols then truncateLine disp segment cols else segment

def wordWrapPlainRow (line : String) (cols : ℕ) : Option (List String) :=
  if cols < 4 ∨ Text.isEmpty line then some [line]
  else if containsAnsiEscape line then some [line]
  else if visibleDisplayWidth disp line ≤ cols then some [line]
  else do
    let structural ← isStructuralPlainStr disp line
    some (if structural then [line] else wordWrapToCols disp line cols)

def parseCommandSessionStarted (line : String) : Option (String × Option String) := do
  let rest ← Text.stripPrefix line "[command session started"
  let (before, command) ← Text.splitOnce rest "] "
  let pid := ((Text.stripPrefix before " pid=").map Text.trim).filter fun value => !Text.isEmpty value
  some (command, pid)

def plainRowPrefixWidth (line : String) : ℕ :=
  if Text.startsWith line "[approval] " then disp.displayWidth "  ? "
  else if Text.startsWith line "[approval_detail] " then disp.displayWidth "    "
  else if (parseCommandSessionStarted line).isSome then disp.displayWidth toolMarker
  else if Text.startsWith line "[command session exit: " || line == "[command session cancelled]" ||
      line == "[command session cancellation requested]" then disp.displayWidth "    "
  else if Text.startsWith line "[command session] error: " then disp.displayWidth errorMarker
  else if Text.startsWith line "[stderr] " then disp.displayWidth evidenceMarker
  else 0

def transcriptRowPrefixWidth : TranscriptRow → ℕ
  | .toolHeader _ => disp.displayWidth toolMarker
  | .toolDetail _ => disp.displayWidth "    "
  | .evidence _ => disp.displayWidth evidenceMarker
  | .error _ => disp.displayWidth errorMarker
  | .userInput _ => disp.displayWidth "> "
  | .plain line => plainRowPrefixWidth disp line
  | .assistantText .. | .waitingPlaceholder _ => 0

def transcriptRowWrapWidth (row : TranscriptRow) (cols : ℕ) : ℕ :=
  max (cols - transcriptRowPrefixWidth disp row) 1

def wordWrapTranscriptRow (row : TranscriptRow) (cols : ℕ) : Option (List String) :=
  let text := row.asDisplayStr
  match row with
  | .waitingPlaceholder _ => some [text]
  | _ =>
    if containsAnsiEscape text then some [text]
    else
      let wrapCols := transcriptRowWrapWidth disp row cols
      if visibleDisplayWidth disp text ≤ wrapCols then some [text]
      else do
        let structural ← isStructuralTranscriptRow disp row
        if structural then some [text] else wordWrapPlainRow disp text wrapCols

/-! ### File blocks of the input -/

/-- The name in a line `[file: name]` or `[dir: name]`. -/
def bracketedName (opening line : String) : Option String :=
  (Text.stripPrefix line opening).bind fun rest =>
    if Text.endsWith rest "]" then some (String.ofList rest.toList.dropLast) else none

/-- The lines behind the name of a file: the text in the fence goes with the line in front of it. -/
def collapsedLines (inCodeFence : Bool) : List String → List String
  | [] => []
  | line :: lines =>
    if inCodeFence then collapsedLines (line ≠ "```") lines
    else if (Text.startsWith line "[file: " || Text.startsWith line "[dir: ") &&
        Text.contains line "—" && Text.endsWith line "]" then collapsedLines false lines
    else
      match (bracketedName "[file: " line).map (fun rest => "@" ++ rest) <|>
          (bracketedName "[dir: " line).map (fun rest => "@" ++ rest ++ "/") with
      | some shown =>
        match lines with
        | next :: lines => shown :: collapsedLines (next = "```text") lines
        | [] => [shown]
      | none => line :: collapsedLines false lines

def collapseFileBlocksForDisplay (text : String) : String :=
  if !Text.contains text "[file: " && !Text.contains text "[dir: " then text
  else Text.join "\n" (collapsedLines false (Text.lines text))

/-! ### The expanded rows -/

def shownText (row : TranscriptRow) : String :=
  match row with
  | .userInput text => collapseFileBlocksForDisplay text
  | _ => row.asDisplayStr

def expandRow (cols : ℕ) (row : TranscriptRow) : Option (List TranscriptRow) :=
  if row.asDisplayStr.toList.contains '\n' then do
    let wrapped ← (splitOn '\n' (shownText row).toList).mapM fun sub =>
      wordWrapPlainRow disp (String.ofList sub) cols
    some (wrapped.flatten.map row.cloneWithText)
  else (wordWrapTranscriptRow disp row cols).map fun wrapped => wrapped.map row.cloneWithText

def expandRowsForDisplay (rows : List TranscriptRow) (cols : ℕ) : Option (List TranscriptRow) :=
  if cols < 4 then some rows
  else (rows.mapM (expandRow disp cols)).map List.flatten

/-! ### The rows can be expanded -/

theorem byteLen_digits {s : List Char} (h : ∀ c ∈ s, c.isDigit = true) : byteLen s = s.length := by
  induction s with
  | nil => rfl
  | cons c s ih =>
    have hdigit := h c List.mem_cons_self
    have hsize : c.utf8Size = 1 := by
      rw [Char.utf8Size_eq_one_iff]
      simp only [Char.isDigit, ge_iff_le, Bool.and_eq_true, decide_eq_true_eq] at hdigit
      exact UInt32.le_trans hdigit.2 (by decide)
    rw [byteLen_cons, hsize, ih fun d hd => h d (List.mem_cons_of_mem _ hd), List.length_cons]
    omega

/-- Behind the digits stand two characters of one byte each. -/
theorem parseNumberedListItem_completes (line : String) : Completes (parseNumberedListItem disp line) := by
  refine .ite (.pure _) ?_
  have hdigits : byteLen (line.toList.takeWhile Char.isDigit) = (line.toList.takeWhile Char.isDigit).length :=
    byteLen_digits fun c hc => List.mem_takeWhile_imp hc
  have hsplit := List.takeWhile_append_dropWhile (p := Char.isDigit) (l := line.toList)
  generalize line.toList.takeWhile Char.isDigit = digits at hdigits hsplit
  rw [← hsplit, List.drop_left]
  rcases hrest : line.toList.dropWhile Char.isDigit with _ | ⟨mark, _ | ⟨blank, rest⟩⟩
  · exact .pure _
  · exact .pure _
  · show Completes (if _ then _ else _)
    split
    · rename_i hmark
      obtain ⟨hmark, rfl⟩ := hmark
      have hlen : digits.length + 2 = byteLen (digits ++ [mark, ' ']) := by
        rw [byteLen_append, hdigits]
        rcases hmark with rfl | rfl <;> rfl
      have htext : digits ++ mark :: ' ' :: rest = (digits ++ [mark, ' ']) ++ rest := by
        rw [List.append_assoc]
        rfl
      rw [htext, hlen, sliceTo_append]
      show Completes (sliceFrom _ _ >>= _)
      rw [sliceFrom_append]
      exact .pure _
    · exact .pure _

theorem isStructuralPlainStr_completes (line : String) : Completes (isStructuralPlainStr disp line) :=
  .ite (.pure _) (.map _ (parseNumberedListItem_completes disp line))

theorem isStructuralTranscriptRow_completes (row : TranscriptRow) :
    Completes (isStructuralTranscriptRow disp row) := by
  cases row with
  | plain text => exact isStructuralPlainStr_completes disp text
  | userInput | assistantText | toolHeader | toolDetail | evidence | error | waitingPlaceholder =>
    exact .pure _

theorem wordWrapPlainRow_completes (line : String) (cols : ℕ) :
    Completes (wordWrapPlainRow disp line cols) := by
  refine .ite (.pure _) (.ite (.pure _) (.ite (.pure _) ?_))
  exact .bind (isStructuralPlainStr_completes disp line) fun structural => .pure _

theorem wordWrapTranscriptRow_completes (row : TranscriptRow) (cols : ℕ) :
    Completes (wordWrapTranscriptRow disp row cols) := by
  have hwrap : Completes (if containsAnsiEscape row.asDisplayStr then some [row.asDisplayStr] else
      let wrapCols := transcriptRowWrapWidth disp row cols
      if visibleDisplayWidth disp row.asDisplayStr ≤ wrapCols then some [row.asDisplayStr]
      else do
        let structural ← isStructuralTranscriptRow disp row
        if structural then some [row.asDisplayStr]
        else wordWrapPlainRow disp row.asDisplayStr wrapCols) := by
    refine .ite (.pure _) (.ite (.pure _) ?_)
    refine .bind (isStructuralTranscriptRow_completes disp row) fun structural => .ite (.pure _) ?_
    exact wordWrapPlainRow_completes disp _ _
  cases row with
  | waitingPlaceholder text => exact .pure _
  | userInput | assistantText | toolHeader | toolDetail | evidence | error | plain => exact hwrap

theorem expandRow_completes (cols : ℕ) (row : TranscriptRow) : Completes (expandRow disp cols row) := by
  refine .ite (.bind (.mapM (fun sub => ?_) _) fun wrapped => .pure _) (.map _ ?_)
  · exact wordWrapPlainRow_completes disp _ _
  · exact wordWrapTranscriptRow_completes disp row cols

/-- **All rows can be expanded, at every width.** -/
theorem expandRowsForDisplay_completes (rows : List TranscriptRow) (cols : ℕ) :
    Completes (expandRowsForDisplay disp rows cols) :=
  .ite (.pure _) (.map _ (.mapM (expandRow_completes disp cols) rows))

end Vexcoder.App

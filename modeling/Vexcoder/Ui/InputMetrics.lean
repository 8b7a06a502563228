import Vexcoder.Base.Slices

/-!
# The rows of the input pane

The input is shown in rows of a given width.  `wrapInputLines` gives the texts of the rows,
`visualLayout` their byte ranges in the input and the place of the cursor, and `byteForRowCol` leads
from a place back to a byte.
-/

namespace Vexcoder.Ui

open Base

/-- `UnicodeWidthChar::width`; a control character, such as the carriage return, has none. -/
structure CharWidths where
  width : Char → Option ℕ
  carriageReturn : width '\r' = none

variable (w : CharWidths)

def CharWidths.charDisplayWidth (ch : Char) : ℕ := (w.width ch).getD 0

/-! ### Wrapping -/

/-- `lines` and `line_widths` of `wrap_input_lines`: the lines in front of the last one, the last one
and its width. -/
structure WrapState where
  done : List (List Char) := []
  line : List Char := []
  lineWidth : ℕ := 0

def WrapState.newLine (s : WrapState) : WrapState := { done := s.done ++ [s.line] }

def wrapStep (width : ℕ) (s : WrapState) (ch : Char) : WrapState :=
  if ch = '\r' then s
  else if ch = '\n' then s.newLine
  else
    let chWidth := w.charDisplayWidth ch
    let s := if s.lineWidth + chWidth > width ∧ s.lineWidth > 0 then s.newLine else s
    { s with line := s.line ++ [ch], lineWidth := s.lineWidth + chWidth }

def wrapInputLines (input : List Char) (width : ℕ) : List (List Char) :=
  let s := input.foldl (wrapStep w (max width 1)) {}
  s.done ++ [s.line]

/-! ### The layout -/

structure VisualLayout where
  spans : List (ℕ × ℕ)
  cursorRow : ℕ
  cursorCol : ℕ

def VisualLayout.rowCount (l : VisualLayout) : ℕ := max l.spans.length 1

def VisualLayout.rowBounds (l : VisualLayout) (targetRow : ℕ) : ℕ × ℕ :=
  (l.spans[targetRow]?).getD (l.spans.getLastD (0, 0))

/-- The variables of the loop of `visual_layout`. -/
structure LayoutState where
  spans : List (ℕ × ℕ) := []
  rowStart : ℕ := 0
  row : ℕ := 0
  col : ℕ := 0
  cursorRow : ℕ := 0
  cursorCol : ℕ := 0
  cursorSet : Bool := false

/-- The cursor is placed once, at the first character that is not in front of it. -/
def LayoutState.placeCursor (s : LayoutState) (cursorByte idx row col : ℕ) : LayoutState :=
  if s.cursorSet = false ∧ cursorByte ≤ idx then
    { s with cursorRow := row, cursorCol := col, cursorSet := true }
  else s

/-- The row ends at `idx`, and the next one starts at `next`. -/
def LayoutState.endRow (s : LayoutState) (idx next : ℕ) : LayoutState :=
  { s with spans := s.spans ++ [(s.rowStart, idx)], rowStart := next, row := s.row + 1, col := 0 }

def layoutStep (width cursorByte : ℕ) (s : LayoutState) (idx : ℕ) (ch : Char) : LayoutState :=
  if ch = '\r' then s.placeCursor cursorByte idx s.row s.col
  else if ch = '\n' then
    (s.placeCursor cursorByte idx s.row s.col).endRow idx (idx + ch.utf8Size)
  else
    let chWidth := w.charDisplayWidth ch
    let wrapsBefore := decide (s.col + chWidth > width ∧ s.col > 0)
    let s :=
      if idx = cursorByte ∧ wrapsBefore then s.placeCursor cursorByte idx (s.row + 1) 0
      else s.placeCursor cursorByte idx s.row s.col
    let s := if wrapsBefore then s.endRow idx idx else s
    { s with col := s.col + chWidth }

/-- The loop over `char_indices`. -/
def layoutScan (width cursorByte : ℕ) : ℕ → List Char → LayoutState → LayoutState
  | _, [], s => s
  | idx, ch :: input, s =>
    layoutScan width cursorByte (idx + ch.utf8Size) input (layoutStep w width cursorByte s idx ch)

def clampToCharBoundaryLeft (input : List Char) (cursor : ℕ) : ℕ := floorCharBoundary cursor input

/-- What is behind the loop of `visual_layout`: the last row, and an empty one behind a full row. -/
def LayoutState.finish (s : LayoutState) (width cursorByte inputLen : ℕ) : VisualLayout :=
  let (cursorRow, cursorCol) := if s.cursorSet then (s.cursorRow, s.cursorCol) else (s.row, s.col)
  let spans := s.spans ++ [(min s.rowStart inputLen, inputLen)]
  if s.col ≥ width then
    let spans := spans ++ [(inputLen, inputLen)]
    if cursorByte = inputLen then ⟨spans, cursorRow + 1, 0⟩ else ⟨spans, cursorRow, cursorCol⟩
  else ⟨spans, cursorRow, cursorCol⟩

def visualLayout (input : List Char) (cursorByte width : ℕ) : VisualLayout :=
  let width := max width 1
  let cursorByte := clampToCharBoundaryLeft input cursorByte
  (layoutScan w width cursorByte 0 input {}).finish width cursorByte (byteLen input)

/-! ### From a place to a byte -/

/-- The loop over the characters of a span, of which `idx` and `col` are reached. -/
def seekColumn (targetCol spanEnd : ℕ) : ℕ → ℕ → List Char → ℕ
  | _, _, [] => spanEnd
  | idx, col, ch :: text =>
    if targetCol ≤ col then idx
    else
      let nextCol := col + w.charDisplayWidth ch
      if targetCol < nextCol then idx
      else seekColumn targetCol spanEnd (idx + ch.utf8Size) nextCol text

/-- `byte_for_row_col_in_span`; `none` is the panic of the slice of the span. -/
def byteForRowColInSpan (input : List Char) (start spanEnd targetCol : ℕ) : Option ℕ :=
  if start ≥ spanEnd then some (min start (byteLen input))
  else (sliceBytes start spanEnd input).map (seekColumn w targetCol spanEnd start 0)

def VisualLayout.byteForRowCol (l : VisualLayout) (input : List Char) (targetRow targetCol : ℕ) :
    Option ℕ :=
  byteForRowColInSpan w input (l.rowBounds targetRow).1 (l.rowBounds targetRow).2 targetCol

def cursorRowCol (input : List Char) (cursorByte width : ℕ) : ℕ × ℕ :=
  let layout := visualLayout w input cursorByte width
  (layout.cursorRow, layout.cursorCol)

def visualRowBounds (input : List Char) (targetRow width : ℕ) : ℕ × ℕ :=
  (visualLayout w input (byteLen input) width).rowBounds targetRow

end Vexcoder.Ui

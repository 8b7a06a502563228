import Vexcoder.Ui.InputMetrics

/-!
# The input editor

`InputState` is the text that is being written, the cursor in it, the submitted texts and the two
stacks of undo and redo.  A text is cut at byte offsets; `none` is the panic of a cut inside a
character.
-/

namespace Vexcoder.Ui

open Base

def maxInputBytes : ℕ := 1048576

/-! ### Text at an offset -/

/-- `String::replace_range` -/
def replaceRangeIn (start rangeEnd : ℕ) (value buffer : List Char) : Option (List Char) :=
  if start ≤ rangeEnd then do
    let before ← sliceTo start buffer
    let behind ← sliceFrom rangeEnd buffer
    some (before ++ (value ++ behind))
  else none

/-- `String::insert_str` -/
def insertStrAt (idx : ℕ) (value buffer : List Char) : Option (List Char) :=
  replaceRangeIn idx idx value buffer

/-- `str::trim_end_matches` for one character. -/
def trimEndMatches (c : Char) (s : List Char) : List Char :=
  (s.reverse.dropWhile (· == c)).reverse

def prevCharBoundaryIn (buffer : List Char) (idx : ℕ) : ℕ :=
  let normalized := floorCharBoundary idx buffer
  if normalized = 0 then 0 else floorCharBoundary (normalized - 1) buffer

/-! ### The state -/

structure EditorRollup where
  buffer : List Char
  cursor : ℕ

/-- The top of a stack is its head. -/
structure InputState where
  buffer : List Char := []
  cursor : ℕ := 0
  history : List (List Char) := []
  historyIndex : Option ℕ := none
  historyStash : Option EditorRollup := none
  undoStack : List EditorRollup := []
  redoStack : List EditorRollup := []

inductive InputAction where
  | none
  | submit (value : List Char)
  | interrupt
  | quit

namespace InputState

def clampCursorToBoundaryLeft (s : InputState) (idx : ℕ) : ℕ := floorCharBoundary idx s.buffer

def prevCharBoundary (s : InputState) (idx : ℕ) : ℕ := prevCharBoundaryIn s.buffer idx

def nextCharBoundary (s : InputState) (idx : ℕ) : Option ℕ :=
  let i := s.clampCursorToBoundaryLeft idx
  if i ≥ byteLen s.buffer then some (byteLen s.buffer)
  else (sliceFrom i s.buffer).map fun rest =>
    match rest with
    | ch :: _ => i + ch.utf8Size
    | [] => byteLen s.buffer

def rollup (s : InputState) : EditorRollup := { buffer := s.buffer, cursor := s.cursor }

def pushUndo (s : InputState) : InputState :=
  { s with undoStack := s.rollup :: s.undoStack, redoStack := [] }

def restore (s : InputState) (snap : EditorRollup) : InputState :=
  { s with buffer := snap.buffer, cursor := floorCharBoundary snap.cursor snap.buffer }

def leaveHistory (s : InputState) : InputState :=
  { s with historyIndex := none, historyStash := none }

/-! ### Edits -/

def insertStr (s : InputState) (value : List Char) : Option InputState :=
  let s := s.leaveHistory
  let cursor := s.clampCursorToBoundaryLeft s.cursor
  if byteLen s.buffer + byteLen value > maxInputBytes then some s
  else do
    let buffer ← insertStrAt cursor value s.buffer
    some { s.pushUndo with buffer, cursor := cursor + byteLen value }

def replaceRange (s : InputState) (start rangeEnd : ℕ) (value : List Char) : Option InputState := do
  let start := s.clampCursorToBoundaryLeft (min start rangeEnd)
  let rangeEnd := s.clampCursorToBoundaryLeft (max rangeEnd start)
  let buffer ← replaceRangeIn start rangeEnd value s.buffer
  some { s.leaveHistory.pushUndo with buffer, cursor := start + byteLen value }

def backspace (s : InputState) : Option InputState :=
  let rangeEnd := s.clampCursorToBoundaryLeft s.cursor
  if rangeEnd = 0 then some s
  else do
    let start := s.prevCharBoundary rangeEnd
    let buffer ← replaceRangeIn start rangeEnd [] s.buffer
    some { s.leaveHistory.pushUndo with buffer, cursor := start }

def delete (s : InputState) : Option InputState :=
  let start := s.clampCursorToBoundaryLeft s.cursor
  if start ≥ byteLen s.buffer then some s
  else do
    let rangeEnd ← s.nextCharBoundary start
    let buffer ← replaceRangeIn start rangeEnd [] s.buffer
    some { s.leaveHistory.pushUndo with buffer, cursor := start }

/-- The text that `submit` takes. -/
def submitted (s : InputState) : List Char := trimEndMatches '\r' (trimEndMatches '\n' s.buffer)

def submit (s : InputState) : InputState × Option (List Char) :=
  if s.submitted.isEmpty then (s, none)
  else
    ({ ({ s with history := s.history ++ [s.submitted] } : InputState).leaveHistory.pushUndo with
        buffer := [], cursor := 0 }, some s.submitted)

/-! ### History, undo and redo -/

/-- The entry of the history that is shown; the source indexes it. -/
def showHistory (s : InputState) (idx : ℕ) : Option InputState :=
  (s.history[idx]?).map fun entry =>
    { s with historyIndex := some idx, buffer := entry, cursor := byteLen entry }

def historyUp (s : InputState) : Option InputState :=
  if s.history.isEmpty then some s
  else
    let nextIndex := match s.historyIndex with
      | some idx => idx - 1
      | none => s.history.length - 1
    let s := if s.historyIndex.isNone then { s with historyStash := some s.rollup } else s
    s.showHistory nextIndex

def historyDown (s : InputState) : Option InputState :=
  match s.historyIndex with
  | none => some s
  | some idx =>
    if idx + 1 ≥ s.history.length then
      match s.historyStash with
      | some stash => some ({ s with historyIndex := none, historyStash := none }.restore stash)
      | none => some { s with historyIndex := none, buffer := [], cursor := 0 }
    else s.showHistory (idx + 1)

def undo (s : InputState) : InputState :=
  match s.undoStack with
  | [] => s
  | previous :: rest =>
    { s with undoStack := rest, redoStack := s.rollup :: s.redoStack }.restore previous

def redo (s : InputState) : InputState :=
  match s.redoStack with
  | [] => s
  | next :: rest =>
    { s with redoStack := rest, undoStack := s.rollup :: s.undoStack }.restore next

/-! ### Moves over the rows that are shown -/

variable (w : CharWidths)

def moveToRow (s : InputState) (width : ℕ) (target : VisualLayout → Option ℕ) : Option InputState :=
  let layout := visualLayout w s.buffer s.cursor width
  match target layout with
  | none => some s
  | some row =>
    (layout.byteForRowCol w s.buffer row layout.cursorCol).map fun cursor => { s with cursor }

def moveCursorVisualUp (s : InputState) (width : ℕ) : Option InputState :=
  s.moveToRow w (max width 1) fun layout =>
    if layout.cursorRow = 0 then none else some (layout.cursorRow - 1)

def moveCursorVisualDown (s : InputState) (width : ℕ) : Option InputState :=
  s.moveToRow w (max width 1) fun layout =>
    if layout.cursorRow ≥ layout.rowCount - 1 then none else some (layout.cursorRow + 1)

def cursorRowBounds (s : InputState) (width : ℕ) : ℕ × ℕ :=
  visualRowBounds w s.buffer (cursorRowCol w s.buffer s.cursor (max width 1)).1 (max width 1)

def moveCursorVisualHome (s : InputState) (width : ℕ) : InputState :=
  { s with cursor := (s.cursorRowBounds w width).1 }

def moveCursorVisualEnd (s : InputState) (width : ℕ) : InputState :=
  { s with cursor := (s.cursorRowBounds w width).2 }

end InputState

/-! ### Keys -/

/-- The key codes that the editor tells apart. -/
inductive KeyCode where
  | char (ch : Char)
  | enter | backspace | delete | left | right | home | «end» | up | down | esc
  | other

structure KeyStroke where
  code : KeyCode
  control : Bool := false
  shift : Bool := false

inductive Event where
  | paste (text : List Char)
  | key (key : KeyStroke)
  | other

namespace InputState

/-- A key that edits or moves, and asks for no action. -/
def quietly (s : Option InputState) : Option (InputState × InputAction) :=
  s.map fun s => (s, .none)

def applyKey (s : InputState) (key : KeyStroke) : Option (InputState × InputAction) :=
  match key.code, key.control, key.shift with
  | .char 'd', true, _ => if s.buffer.isEmpty then some (s, .quit) else quietly s.delete
  | .char 'c', true, _ => some (s, .interrupt)
  | .char 'j', true, _ => quietly (s.insertStr ['\n'])
  | .char 'z', true, _ => quietly (some s.undo)
  | .char 'y', true, _ => quietly (some s.redo)
  | .enter, _, true => quietly (s.insertStr ['\n'])
  | .enter, _, false =>
    match s.submit with
    | (s', some value) => some (s', .submit value)
    | (s', none) => some (s', .none)
  | .backspace, _, _ => quietly s.backspace
  | .delete, _, _ => quietly s.delete
  | .left, _, _ => quietly (some { s with cursor := s.prevCharBoundary s.cursor })
  | .right, _, _ => quietly ((s.nextCharBoundary s.cursor).map fun cursor => { s with cursor })
  | .home, _, _ => quietly (some { s with cursor := 0 })
  | .end, _, _ => quietly (some { s with cursor := byteLen s.buffer })
  | .up, _, _ => quietly s.historyUp
  | .down, _, _ => quietly s.historyDown
  | .char ch, _, _ => quietly (s.insertStr [ch])
  | .esc, _, _ => if s.buffer.isEmpty then some (s, .submit "esc".toList) else some (s, .none)
  | .other, _, _ => some (s, .none)

def applyInput (s : InputState) : Event → Option (InputState × InputAction)
  | .paste text => quietly (s.insertStr text)
  | .key key => s.applyKey key
  | .other => some (s, .none)

end InputState

/-! ### Runs -/

inductive EditorOp where
  | insertStr (value : List Char)
  | replaceRange (start rangeEnd : ℕ) (value : List Char)
  | backspace | delete | submit | historyUp | historyDown | undo | redo
  | visualUp (width : ℕ) | visualDown (width : ℕ) | visualHome (width : ℕ) | visualEnd (width : ℕ)
  | applyInput (occurrence : Event)

variable (w : CharWidths)

def editorStep (s : InputState) : EditorOp → Option InputState
  | .insertStr value => s.insertStr value
  | .replaceRange start rangeEnd value => s.replaceRange start rangeEnd value
  | .backspace => s.backspace
  | .delete => s.delete
  | .submit => some s.submit.1
  | .historyUp => s.historyUp
  | .historyDown => s.historyDown
  | .undo => some s.undo
  | .redo => some s.redo
  | .visualUp width => s.moveCursorVisualUp w width
  | .visualDown width => s.moveCursorVisualDown w width
  | .visualHome width => some (s.moveCursorVisualHome w width)
  | .visualEnd width => some (s.moveCursorVisualEnd w width)
  | .applyInput occurrence => (s.applyInput occurrence).map Prod.fst

def editorRun (s : InputState) : List EditorOp → Option InputState
  | [] => some s
  | op :: ops => (editorStep w s op).bind fun s' => editorRun s' ops

end Vexcoder.Ui

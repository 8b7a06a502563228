import Vexcoder.Tools.FileEffects

/-!
# Checkpoints for `/undo`

A call of a file tool is preceded by a snapshot of the file that its input names; when the call succeeds
the snapshot goes on the undo stack.  `/undo` pops it, removes the path to clean up and writes the old
content back.  The snapshot takes its paths from the input by its own lists of keys, and as they are
written: it neither trims nor normalises them.
-/

namespace Vexcoder.Tools

open Base
open Conversation (firstToolString)
open Lib.Files
open Lib.Files.FileSystem (Plain)

structure ToolCall where
  tool : MutationTool
  input : Value

structure UndoCheckpoint where
  toolName : String
  path : List Component
  cleanupPath : Option (List Component)
  previousContent : Option String

/-! ### Paths as the system reads them -/

/-- A slash that follows a slash or ends the path stands for a dot. -/
def rawComponent (piece : List Char) : Component :=
  if piece.isEmpty || piece = ['.'] then .curDir
  else if piece = ['.', '.'] then .parentDir
  else .normal (String.ofList piece)

def rawComponents (path : String) : List Component :=
  (if path.toList.head? = some '/' then [.rootDir] else []) ++ (splitOn '/' path.toList).map rawComponent

/-- `working_dir().join` -/
def rawJoin (dir : List Component) (path : String) : List Component :=
  if path.toList.head? = some '/' then rawComponents path
  else if dir.isEmpty && Text.isEmpty path then []
  else dir ++ rawComponents path

/-! ### The snapshot -/

def ToolCall.snapshotPath (call : ToolCall) : Option String :=
  match call.tool with
  | .writeFile | .applyPatch | .editFile =>
    firstToolString call.input ["path", "file_path", "file"]
  | .renameFile => firstToolString call.input ["old_path", "from", "source_path"]

def ToolCall.cleanupPath (call : ToolCall) : Option String :=
  match call.tool with
  | .writeFile | .applyPatch | .editFile => none
  | .renameFile => firstToolString call.input ["new_path", "to", "dest_path"]

def captureUndoSnapshot (op : ToolOperator) (fs : FileSystem) (call : ToolCall) :
    Option UndoCheckpoint :=
  match call.snapshotPath with
  | none => none
  | some path =>
    let abs := rawJoin op.workingDir path
    some {
      toolName := call.tool.name
      path := abs
      cleanupPath := call.cleanupPath.map (rawJoin op.workingDir)
      previousContent := (fs.readAt abs).toOption }

/-- The newest checkpoint is the last one. -/
def pushUndoCheckpoint (maxUndoCheckpoints : ℕ) (undoStack : List UndoCheckpoint)
    (checkpoint : UndoCheckpoint) : List UndoCheckpoint :=
  if maxUndoCheckpoints = 0 then undoStack
  else
    (if maxUndoCheckpoints ≤ undoStack.length then undoStack.tail else undoStack) ++ [checkpoint]

/-! ### Calls and `/undo` -/

structure UndoState where
  files : FileSystem
  undoStack : List UndoCheckpoint

/-- What the loop over the calls of a round does for a call that is approved. -/
def callTool (op : ToolOperator) (host : MutationHost) (maxUndoCheckpoints : ℕ) (state : UndoState)
    (call : ToolCall) : UndoState × Except ToolError String :=
  let undoSnapshot := captureUndoSnapshot op state.files call
  match executeTool op host state.files call.tool call.input with
  | (files, .error e) => ({ state with files }, .error e)
  | (files, .ok text) =>
    let undoStack := match undoSnapshot with
      | some checkpoint => pushUndoCheckpoint maxUndoCheckpoints state.undoStack checkpoint
      | none => state.undoStack
    ({ files, undoStack }, .ok text)

/-- The line that `/undo` shows. -/
inductive UndoReport where
  | disabled
  | nothing
  | failedToRemove (path : List Component) (e : IoError)
  | failedToRestore (path : List Component) (e : IoError)
  | reverted (toolName : String) (path : List Component) (remaining : ℕ)

def removeIfThere (fs : FileSystem) (path : List Component) : Except IoError FileSystem :=
  if fs.existsAt path then fs.removeAt path else .ok fs

def restorePath (fs : FileSystem) (checkpoint : UndoCheckpoint) (remaining : ℕ) : FileSystem × UndoReport :=
  match checkpoint.previousContent with
  | some content =>
    match fs.writeAt checkpoint.path content with
    | .error e => (fs, .failedToRestore checkpoint.path e)
    | .ok fs => (fs, .reverted checkpoint.toolName checkpoint.path remaining)
  | none =>
    match removeIfThere fs checkpoint.path with
    | .error e => (fs, .failedToRemove checkpoint.path e)
    | .ok fs => (fs, .reverted checkpoint.toolName checkpoint.path remaining)

def revert (fs : FileSystem) (checkpoint : UndoCheckpoint) (remaining : ℕ) : FileSystem × UndoReport :=
  match checkpoint.cleanupPath with
  | none => restorePath fs checkpoint remaining
  | some cleanupPath =>
    match removeIfThere fs cleanupPath with
    | .error e => (fs, .failedToRemove cleanupPath e)
    | .ok fs => restorePath fs checkpoint remaining

def handleUndoCommand (undoEnabled : Bool) (state : UndoState) : UndoState × UndoReport :=
  if !undoEnabled then (state, .disabled)
  else
    match state.undoStack.getLast? with
    | none => (state, .nothing)
    | some checkpoint =>
      let undoStack := state.undoStack.dropLast
      let (files, report) := revert state.files checkpoint undoStack.length
      ({ files, undoStack }, report)

/-! ### What a call leaves -/

def pushedSnapshot (op : ToolOperator) (maxUndoCheckpoints : ℕ) (state : UndoState)
    (call : ToolCall) : List UndoCheckpoint :=
  match captureUndoSnapshot op state.files call with
  | some checkpoint => pushUndoCheckpoint maxUndoCheckpoints state.undoStack checkpoint
  | none => state.undoStack

theorem callTool_ok {op : ToolOperator} {host : MutationHost} {maxUndoCheckpoints : ℕ}
    {state state' : UndoState} {call : ToolCall} {text : String}
    (h : callTool op host maxUndoCheckpoints state call = (state', .ok text)) :
    (∃ request, toolRequest call.tool call.input = .ok request ∧
        op.Changes host.toEditHost state.files request state'.files) ∧
      state'.undoStack = pushedSnapshot op maxUndoCheckpoints state call := by
  rw [callTool] at h
  split at h
  · cases h
  rename_i files text' hexecute
  cases h
  refine ⟨?_, rfl⟩
  rw [executeTool] at hexecute
  split at hexecute
  · cases hexecute
  · rename_i request hrequest
    exact ⟨request, hrequest, ToolOperator.executeRequest_changes hexecute⟩

theorem callTool_error {op : ToolOperator} {host : MutationHost} {maxUndoCheckpoints : ℕ}
    {state state' : UndoState} {call : ToolCall} {e : ToolError}
    (h : callTool op host maxUndoCheckpoints state call = (state', .error e)) :
    state'.undoStack = state.undoStack := by
  rw [callTool] at h
  split at h
  · cases h
    rfl
  · cases h

/-! ### A stack with room -/

theorem mem_pushUndoCheckpoint {maxUndoCheckpoints : ℕ} {undoStack : List UndoCheckpoint}
    {checkpoint other : UndoCheckpoint}
    (h : other ∈ pushUndoCheckpoint maxUndoCheckpoints undoStack checkpoint) :
    other ∈ undoStack ∨ other = checkpoint := by
  rw [pushUndoCheckpoint] at h
  split at h
  · exact .inl h
  rcases List.mem_append.mp h with h | h
  · split at h
    · exact .inl (List.mem_of_mem_tail h)
    · exact .inl h
  · exact .inr (List.mem_singleton.mp h)

end Vexcoder.Tools

import Vexcoder.Conversation.ToolPreview
import Vexcoder.Lib.FileWays
import Vexcoder.Tools.Confinement

/-!
# The tools that change files

`execute_tool` for the four tools that change files: the arguments are taken from the input by lists of
keys, and the result is a text or an error.  The file tools say here which file system they leave; their
results are those of `writeFile`, `applyPatch`, `editFile` and `renameFile`.
-/

namespace Vexcoder.Tools

open Base
open Conversation (firstToolString contentStats)
open Lib.Files
open Lib.Files.FileSystem (Plain)

inductive MutationTool where
  | writeFile
  | applyPatch
  | editFile
  | renameFile

def MutationTool.name : MutationTool → String
  | .writeFile => "write_file"
  | .applyPatch => "apply_patch"
  | .editFile => "edit_file"
  | .renameFile => "rename_file"

/-- The limits are those of the environment. -/
structure MutationHost extends EditHost where
  /-- `write_file_max_lines` -/
  writeFileMaxLines : ℕ
  /-- `write_file_diff_preferred_above_lines` -/
  diffPreferredAboveLines : ℕ

/-! ### Arguments -/

def missingArgument (tool : MutationTool) (acceptedKey : String) : ToolError :=
  .message (tool.name ++ " requires a non-empty '" ++ acceptedKey ++ "' string argument")

def requiredToolStringAny (input : Value) (tool : MutationTool) (acceptedKey : String)
    (keys : List String) : Except ToolError String :=
  let value := Text.trim ((firstToolString input keys).getD "")
  if Text.isEmpty value then .error (missingArgument tool acceptedKey) else .ok value

def requiredToolStringAnyPreserve (input : Value) (tool : MutationTool) (acceptedKey : String)
    (keys : List String) : Except ToolError String :=
  let value := (firstToolString input keys).getD ""
  if Text.isEmpty value then .error (missingArgument tool acceptedKey) else .ok value

inductive Request where
  | writeFile (path content : String)
  | applyPatch (path content : String)
  | editFile (path oldStr newStr : String)
  | renameFile (oldPath newPath : String)
  deriving DecidableEq

def toolRequest (tool : MutationTool) (input : Value) : Except ToolError Request :=
  match tool with
  | .writeFile =>
    match requiredToolStringAny input tool "path" ["path", "file_path", "file"] with
    | .error e => .error e
    | .ok path => .ok (.writeFile path ((firstToolString input ["content", "text"]).getD ""))
  | .applyPatch =>
    match requiredToolStringAny input tool "path" ["path", "file_path", "file"] with
    | .error e => .error e
    | .ok path =>
      match requiredToolStringAnyPreserve input tool "content"
          ["content", "text", "new_content"] with
      | .error e => .error e
      | .ok content => .ok (.applyPatch path content)
  | .editFile =>
    match requiredToolStringAny input tool "path" ["path", "file_path", "file", "filename"] with
    | .error e => .error e
    | .ok path =>
      match requiredToolStringAnyPreserve input tool "old_str"
          ["old_str", "old_text", "old_string", "find", "search"] with
      | .error e => .error e
      | .ok oldStr =>
        .ok (.editFile path oldStr ((firstToolString input
          ["new_str", "new_text", "new_string", "replace", "replace_with", "replacement"]).getD ""))
  | .renameFile =>
    match requiredToolStringAny input tool "old_path" ["old_path", "from", "source_path"] with
    | .error e => .error e
    | .ok oldPath =>
      match requiredToolStringAny input tool "new_path" ["new_path", "to", "target_path"] with
      | .error e => .error e
      | .ok newPath => .ok (.renameFile oldPath newPath)

/-! ### The file tools with the files they leave -/

namespace ToolOperator

variable (op : ToolOperator) (host : EditHost) (fs : FileSystem)

def writeFileIn (path content : String) : FileSystem × Except ToolError WriteFileOutcome :=
  match op.resolvePath fs path with
  | .error e => (fs, .error e)
  | .ok resolved =>
    if fs.isDir resolved then (fs, .error (directoryError "write_file" path))
    else if fs.exists? resolved then
      let oldContent := (readToString fs resolved).toOption.getD ""
      (fs, (op.proposePatch host fs path oldContent content).map .pending)
    else
      match createParent fs resolved with
      | (fs, _, .error e) => (fs, .error (.io e))
      | (fs, _, .ok ()) =>
        match fs.write resolved content with
        | .error e => (fs, .error (.context "Failed to write file" e))
        | .ok (fs, _) => (fs, .ok .written)

def applyPatchIn (pending : PendingPatch) : FileSystem × Except ToolError Unit :=
  match op.ensurePathIsWithinWorkspace fs pending.path with
  | .error e => (fs, .error e)
  | .ok () =>
    let tempPath := withExtension pending.path "tmp"
    match fs.write tempPath pending.newContent with
    | .error e => (fs, .error (.context ("Failed to write temp file: " ++ display tempPath) e))
    | .ok (fs, _) =>
      match fs.renameTo tempPath pending.path with
      | .error e =>
        (fs, .error (.context ("Failed to apply patch to: " ++ display pending.path) e))
      | .ok fs => (fs, .ok ())

def editFileIn (path oldStr newStr : String) : FileSystem × Except ToolError Unit :=
  match op.resolvePath fs path with
  | .error e => (fs, .error e)
  | .ok resolved =>
    if fs.isDir resolved then (fs, .error (directoryError "edit_file" path))
    else
      match readToString fs resolved with
      | .error e => (fs, .error (.context "Failed to read file for edit" e))
      | .ok content =>
        match editedContent host fs resolved content oldStr newStr with
        | .error e => (fs, .error e)
        | .ok newContent =>
          match fs.write resolved newContent with
          | .error e => (fs, .error (.context "Failed to edit file" e))
          | .ok (fs, _) => (fs, .ok ())

def renameFileIn (oldPath newPath : String) : FileSystem × Except ToolError String :=
  match op.resolvePath fs oldPath with
  | .error e => (fs, .error e)
  | .ok source =>
    match op.resolvePath fs newPath with
    | .error e => (fs, .error e)
    | .ok target =>
      if !fs.exists? source then
        (fs, .error (.message
          ("Failed to rename file: source '" ++ oldPath ++ "' does not exist")))
      else if source = target then (fs, .ok ("Source and target are the same: " ++ oldPath))
      else
        match createParent fs target with
        | (fs, _, .error e) => (fs, .error (.context "Failed to create destination directory" e))
        | (fs, _, .ok ()) =>
          match fs.renameTo source target with
          | .error e => (fs, .error (.context "Failed to rename file" e))
          | .ok fs => (fs, .ok ("Renamed " ++ oldPath ++ " -> " ++ newPath))

variable {op host fs}

/-! Their results are those of the tools that say what they touch. -/

theorem writeFileIn_result (path content : String) :
    (op.writeFileIn host fs path content).2 = (op.writeFile host fs path content).result := by
  rw [writeFileIn, writeFile]
  cases op.resolvePath fs path with
  | error e => rfl
  | ok resolved =>
    dsimp only
    split
    · rfl
    split
    · rfl
    obtain ⟨fs', made, e | _⟩ := createParent fs resolved
    · rfl
    · dsimp only
      rw [writeResolved]
      cases fs'.write resolved content with
      | error e | ok written => rfl

theorem applyPatchIn_result (pending : PendingPatch) :
    (op.applyPatchIn fs pending).2 = (op.applyPatch fs pending).result := by
  rw [applyPatchIn, applyPatch]
  cases op.ensurePathIsWithinWorkspace fs pending.path with
  | error e => rfl
  | ok _ =>
    dsimp only
    cases fs.write (withExtension pending.path "tmp") pending.newContent with
    | error e => rfl
    | ok written =>
      dsimp only
      rcases FileSystem.renameTo_cases written.1 (withExtension pending.path "tmp") pending.path with
        ⟨e, h, h'⟩ | ⟨locations, fs', h, h'⟩
      · rw [h, h']
      · rw [h, h']

theorem editFileIn_result (path oldStr newStr : String) :
    (op.editFileIn host fs path oldStr newStr).2 = (op.editFile host fs path oldStr newStr).result := by
  rw [editFileIn, editFile]
  cases op.resolvePath fs path with
  | error e => rfl
  | ok resolved =>
    dsimp only
    split
    · rfl
    cases readToString fs resolved with
    | error e => rfl
    | ok content =>
      dsimp only
      cases editedContent host fs resolved content oldStr newStr with
      | error e => rfl
      | ok newContent =>
        dsimp only
        rw [writeResolved]
        cases fs.write resolved newContent with
        | error e | ok written => rfl

theorem renameFileIn_result (oldPath newPath : String) :
    (op.renameFileIn fs oldPath newPath).2 = (op.renameFile fs oldPath newPath).result := by
  rw [renameFileIn, renameFile]
  cases op.resolvePath fs oldPath with
  | error e => rfl
  | ok source =>
    cases op.resolvePath fs newPath with
    | error e => rfl
    | ok target =>
      dsimp only
      split
      · rfl
      split
      · rfl
      obtain ⟨fs', made, e | _⟩ := createParent fs target
      · rfl
      · rcases FileSystem.renameTo_cases fs' source target with ⟨e, h, h'⟩ | ⟨locations, fs'', h, h'⟩
        · simp only [h, h']
        · simp only [h, h']

end ToolOperator

/-! ### The executor -/

/-- The text of a result of `write_file`. -/
def writeFileText (host : MutationHost) (path content : String) (outcome : WriteFileOutcome) :
    String :=
  let (chars, lines) := contentStats content
  let result := match outcome with
    | .written =>
      "Wrote " ++ path ++ " (" ++ toString chars ++ " chars, " ++ toString lines ++ " lines)."
    | .pending patch => "Pending patch for " ++ path ++ ".\n" ++ patch.diff
  let warning :=
    if host.diffPreferredAboveLines < lines then
      "\nWarning: file has " ++ toString lines ++ " lines (>" ++
        toString host.diffPreferredAboveLines ++
        "). Prefer apply_patch or edit_file for large-file edits."
    else ""
  result ++ warning

def editFileText (path oldStr newStr : String) : String :=
  let (oldChars, oldLines) := contentStats oldStr
  let (newChars, newLines) := contentStats newStr
  let verb :=
    if 0 < oldLines && newLines = 0 then "Deleted"
    else if oldLines = 0 && 0 < newLines then "Inserted"
    else "Updated"
  verb ++ " snippet in " ++ path ++ " (" ++ toString oldChars ++ " chars/" ++ toString oldLines ++
    " lines -> " ++ toString newChars ++ " chars/" ++ toString newLines ++ " lines)."

def executeRequest (op : ToolOperator) (host : MutationHost) (fs : FileSystem) :
    Request → FileSystem × Except ToolError String
  | .writeFile path content =>
    let lines := (contentStats content).2
    if host.writeFileMaxLines < lines then
      (fs, .error (.message ("write_file rejected: " ++ toString lines ++ " lines exceeds the " ++
        toString host.writeFileMaxLines ++
        "-line limit. Use apply_patch or edit_file for large files.")))
    else
      match op.writeFileIn host.toEditHost fs path content with
      | (fs, .error e) => (fs, .error e)
      | (fs, .ok outcome) => (fs, .ok (writeFileText host path content outcome))
  | .applyPatch path content =>
    -- `read_file_if_exists` refuses a directory; a file that is not there counts as empty.
    match op.resolvePath fs path with
    | .error e => (fs, .error e)
    | .ok resolved =>
      if fs.isDir resolved then (fs, .error (ToolOperator.directoryError "read_file" path))
      else
        match (match readToString fs resolved with
          | .ok content => .ok content
          | .error .notFound => .ok ""
          | .error e => .error e : Except IoError String) with
        | .error e => (fs, .error (.context "Failed to read file" e))
        | .ok oldContent =>
          match op.proposePatch host.toEditHost fs path oldContent content with
          | .error e => (fs, .error e)
          | .ok pending =>
            match op.applyPatchIn fs pending with
            | (fs, .error e) => (fs, .error e)
            | (fs, .ok ()) =>
              let (chars, lines) := contentStats content
              (fs, .ok ("Applied patch to " ++ path ++ " (" ++ toString chars ++ " chars, " ++
                toString lines ++ " lines)."))
  | .editFile path oldStr newStr =>
    match op.editFileIn host.toEditHost fs path oldStr newStr with
    | (fs, .error e) => (fs, .error e)
    | (fs, .ok ()) => (fs, .ok (editFileText path oldStr newStr))
  | .renameFile oldPath newPath => op.renameFileIn fs oldPath newPath

/-- `execute_tool`; the index of the code base that is refreshed afterwards is not part of this. -/
def executeTool (op : ToolOperator) (host : MutationHost) (fs : FileSystem) (tool : MutationTool)
    (input : Value) : FileSystem × Except ToolError String :=
  match toolRequest tool input with
  | .error e => (fs, .error e)
  | .ok request => executeRequest op host fs request

end Vexcoder.Tools

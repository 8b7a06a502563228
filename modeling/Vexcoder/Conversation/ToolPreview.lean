import Vexcoder.Conversation.Environment
import Vexcoder.Lib.Assoc

/-!
# Tool previews and the read-file cache

The short texts that stand for the input of a tool, and the cache by which a file that has not
changed since it was read is reported in one line.
-/

namespace Vexcoder.Conversation

open Base Lib.Assoc

def asU64 : Value → Option ℕ
  | .number (.posInt n) => some n
  | _ => none

/-- `first_tool_string`, and `first_input_str` of the previews. -/
def firstToolString (input : Value) (keys : List String) : Option String :=
  keys.findSome? fun key => (input.get? key).bind Value.asStr

def firstInputU64 (input : Value) (keys : List String) : Option ℕ :=
  keys.findSome? fun key => (input.get? key).bind asU64

def contentStats (content : String) : ℕ × ℕ :=
  (Text.charCount content, max (Text.lines content).length (if Text.isEmpty content then 0 else 1))

def readFilePath (input : Value) : Option String :=
  firstToolString input ["path", "file_path", "file"]

/-! ### The read-file cache -/

inductive ReadFileRollupSummary where
  | firstRead (chars lines : ℕ)
  | unchanged (chars lines : ℕ)
  | changed (beforeChars beforeLines afterChars afterLines : ℕ)

def ReadFileRollupSummary.isUnchanged : ReadFileRollupSummary → Bool
  | .unchanged .. => true
  | _ => false

/-- For each path the hash and the numbers of characters and lines of what was read last. -/
structure ReadFileRollupCache where
  entries : List (String × (ℕ × ℕ × ℕ)) := []

namespace ReadFileRollupCache

def summarize (hashContent : String → ℕ) (cache : ReadFileRollupCache) (path content : String) :
    ReadFileRollupSummary × ReadFileRollupCache :=
  let (afterChars, afterLines) := contentStats content
  let afterHash := hashContent content
  let inserted := { entries := insertLast path (afterHash, afterChars, afterLines) cache.entries }
  match find? path cache.entries with
  | none => (.firstRead afterChars afterLines, inserted)
  | some (prevHash, prevChars, prevLines) =>
    if prevHash = afterHash then (.unchanged prevChars prevLines, cache)
    else (.changed prevChars prevLines afterChars afterLines, inserted)

end ReadFileRollupCache

inductive ReadFileSummaryMessageStyle where
  | history
  | streaming

def formatReadFileRollupMessage (path : String) (summary : ReadFileRollupSummary)
    (style : ReadFileSummaryMessageStyle) : String :=
  match style, summary with
  | .history, .firstRead chars lines =>
    s!"Read {path}: {chars} chars, {lines} lines. Full content omitted; use search_files for " ++
      s!"targeted string matches."
  | .history, .unchanged chars lines =>
    s!"No changes since last read of {path} ({chars} chars, {lines} lines)."
  | .history, .changed beforeChars beforeLines afterChars afterLines =>
    s!"Read {path}: content changed ({beforeChars} chars/{beforeLines} lines -> {afterChars} " ++
      s!"chars/{afterLines} lines). Full content omitted; use search_files for targeted string matches."
  | .streaming, .firstRead chars lines => s!"content: {chars} chars, {lines} lines (hidden)"
  | .streaming, .unchanged chars lines => s!"no changes since last read ({chars} chars, {lines} lines)"
  | .streaming, .changed beforeChars beforeLines afterChars afterLines =>
    s!"content changed: {beforeChars} chars/{beforeLines} lines -> {afterChars} chars/{afterLines} " ++
      s!"lines"

/-! ### Previews of tool inputs -/

inductive ToolPreviewStyle where
  | compact
  | structured

def defaultEditDiffContextLines : ℕ := 2

/-- `preview_lines` with a marker and without a limit. -/
def previewLines (marker : Char) (text : String) (startLine : ℕ) (indent : String) : String :=
  if Text.isEmpty text then s!"{indent}{startLine} {marker} <empty>\n"
  else
    (((Text.lines text).zipIdx startLine).map fun (line, lineNumber) =>
      s!"{indent}{lineNumber} {marker} {line}\n").foldl (· ++ ·) ""

def previewEditFileInput (env : Environment) (input : Value) (summaryIndent diffIndent : String)
    (diffContextLines : ℕ) : String :=
  let path := (firstToolString input ["path", "file_path", "file", "filename"]).getD "<missing>"
  let oldStr :=
    (firstToolString input ["old_str", "old_text", "old_string", "find", "search"]).getD ""
  let newStr := (firstToolString input
    ["new_str", "new_text", "new_string", "replace", "replace_with", "replacement"]).getD ""
  let (oldChars, oldLines) := contentStats oldStr
  let (newChars, newLines) := contentStats newStr
  s!"path: {path}\n" ++
    s!"{summaryIndent}change: {oldChars} chars/{oldLines} lines -> {newChars} chars/{newLines} " ++
      s!"lines\n" ++
    env.formatEditHunks oldStr newStr diffIndent diffContextLines

def previewWriteFileInput (input : Value) (lineIndent : String) (marker : Char) : String :=
  let path := (firstToolString input ["path", "file_path", "file"]).getD "<missing>"
  let content := (firstToolString input ["content", "text"]).getD ""
  let (chars, lines) := contentStats content
  s!"path: {path}\n" ++ s!"content: {chars} chars, {lines} lines\n" ++
    previewLines marker content 1 lineIndent

def previewToolInput (env : Environment) (toolName : String) (input : Value)
    (style : ToolPreviewStyle) (diffContextLines : ℕ) : String :=
  let string (keys : List String) (default : String) := (firstToolString input keys).getD default
  let number (keys : List String) (default : ℕ) := (firstInputU64 input keys).getD default
  if input = .object [] then "..."
  else
    match style, toolName with
    | .compact, "edit_file" => previewEditFileInput env input "" "  " diffContextLines
    | .structured, "edit_file" => previewEditFileInput env input "" "    " diffContextLines
    | .compact, "write_file" => previewWriteFileInput input "  " '+'
    | .structured, "write_file" => previewWriteFileInput input "    " '+'
    | .structured, "read_file" =>
      let path := string ["path", "file_path", "file"] "<missing>"
      let offset := ((input.get? "offset").bind asU64).map fun offset => s!"\noffset: {offset}"
      let limit := ((input.get? "limit").bind asU64).map fun limit => s!"\nlimit: {limit}"
      s!"path: {path}" ++ offset.getD "" ++ limit.getD ""
    | .structured, "rename_file" =>
      let oldPath := string ["old_path", "from", "source_path"] "<missing>"
      let newPath := string ["new_path", "to", "target_path"] "<missing>"
      s!"old_path: {oldPath}\nnew_path: {newPath}"
    | .structured, "list_files" | .structured, "list_directory" | .structured, "list_dir" =>
      let path := string ["path", "dir", "directory", "root"] "."
      let maxEntries := number ["max_entries", "max_results", "limit"] 100
      s!"path: {path}\nmax_entries: {maxEntries}"
    | .structured, "glob_files" =>
      let pattern := string ["pattern", "glob", "query"] "<missing>"
      let maxResults := number ["max_results", "limit", "max_entries"] 50
      s!"pattern: {pattern}\nmax_results: {maxResults}"
    | .structured, "search_files" | .structured, "search" =>
      let query := string ["query", "pattern", "text", "search", "needle"] "<missing>"
      let maxResults := number ["max_results", "limit", "max_entries"] 30
      let path := (firstToolString input ["path", "dir", "directory", "root"]).map fun path =>
        s!"path: {path}\n"
      s!"query: {query}\n" ++ path.getD "" ++ s!"max_results: {maxResults}"
    | .structured, _ | .compact, _ => env.toStringPretty input

end Vexcoder.Conversation

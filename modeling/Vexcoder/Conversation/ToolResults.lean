import Vexcoder.Conversation.Tools

/-!
# Tool results in the history

The text under which the result of a tool enters the history.  A file that is read enters with a
snapshot of its content, unless the cache says that it has not changed since it was read.
-/

namespace Vexcoder.Conversation

open Base

def enrichedToolResultPreviewLines : ℕ := 5

def enrichedToolResultInlineChars : ℕ := 240

def enrichedToolResultPreviewLineChars : ℕ := 160

def shouldEnrichToolResult (name output : String) : Bool :=
  if enrichedToolResultInlineChars < Text.charCount output || Text.contains output "\n" then true
  else name ∈ ["list_files", "list_directory", "list_dir", "glob_files", "find_files",
    "search_files", "search", "search_content", "codebase_search", "git_status", "git_diff",
    "git_log", "git_show"]

def indentBlock (text indent : String) : String :=
  Text.join "\n" ((Text.lines text).map fun line => indent ++ line)

def truncatePreviewLine (line : String) (maxChars : ℕ) : String :=
  if Text.charCount line ≤ maxChars then line
  else String.ofList (line.toList.take maxChars) ++ "..."

def previewToolOutput (output : String) : String :=
  let lines := Text.lines output
  if lines.isEmpty then "<empty>"
  else
    let rendered := Text.join "\n" ((lines.take enrichedToolResultPreviewLines).map fun line =>
      truncatePreviewLine line enrichedToolResultPreviewLineChars)
    if enrichedToolResultPreviewLines < lines.length then
      rendered ++ "\n... (" ++ toString (lines.length - enrichedToolResultPreviewLines) ++
        " more lines)"
    else rendered

def requestSection (env : Environment) (name : String) (input : Value) : String :=
  let request := previewToolInput env name input .structured defaultEditDiffContextLines
  if Text.isEmpty (Text.trim request) then "" else "\nRequest:\n" ++ indentBlock request "  "

def formatGenericToolResultForModelContext (env : Environment) (name : String) (input : Value)
    (output : String) : String :=
  let (chars, lines) := contentStats output
  let preview :=
    if Text.isEmpty (Text.trim output) then ""
    else "\nOutput preview:\n" ++ indentBlock (previewToolOutput output) "  "
  "Tool " ++ name ++ " completed." ++ requestSection env name input ++
    "\nResult: " ++ toString chars ++ " chars, " ++ toString lines ++ " lines." ++ preview

def toolErrorHint (name : String) : Option String :=
  match name with
  | "read_file" | "list_files" | "list_directory" | "list_dir" | "glob_files" =>
    some "Locate the workspace-relative target first, then retry with an explicit path or pattern."
  | "search_files" | "search" | "search_content" | "codebase_search" =>
    some ("Retry with a focused query or a concrete path scope so the next search result is easier " ++
      "to use.")
  | "write_file" | "apply_patch" | "edit_file" | "rename_file" =>
    some ("Re-read the target path and retry with a streamlined file edit or patch that preserves " ++
      "local style; for Rust, keep the diff rustfmt-consistent.")
  | "git_status" | "git_diff" | "git_log" | "git_show" =>
    some "Retry with a focused git target if the repository state is larger than expected."
  | _ => none

def formatToolErrorForModelContext (env : Environment) (name : String) (input : Value)
    (error : String) : String :=
  -- a call without a location is answered with the prompt for it, in full
  let errorBody := (missingReadOnlyLocationPrompt name input).getD (previewToolOutput error)
  let hint := (toolErrorHint name).map fun hint => "\nSuggested next step:\n  " ++ hint
  "Tool " ++ name ++ " failed." ++ requestSection env name input ++
    "\nError:\n" ++ indentBlock errorBody "  " ++ hint.getD ""

/-! ### Files -/

/-- The part of a result that holds the content of a file. -/
def snapshot (path output : String) : String :=
  "--- " ++ path ++ " ---\n" ++ output ++ "\n--- end " ++ path ++ " ---"

def snapshotSummary (path : String) : ReadFileRollupSummary → String
  | .firstRead chars lines =>
    s!"Read {path}: {chars} chars, {lines} lines. Snapshot included below for model context."
  | .changed beforeChars beforeLines afterChars afterLines =>
    s!"Read {path}: content changed ({beforeChars} chars/{beforeLines} lines -> {afterChars} " ++
      s!"chars/{afterLines} lines). Snapshot included below for model context."
  | .unchanged .. => ""

def formatReadFileResultForModelContext (path output : String) (summary : ReadFileRollupSummary) :
    String :=
  if summary.isUnchanged then formatReadFileRollupMessage path summary .history
  else snapshotSummary path summary ++ "\nContent for model context:\n" ++ snapshot path output

/-- The path under which a result of `read_file` is kept in the cache. -/
def readPath (input : Value) : String := (readFilePath input).getD "<missing>"

/-- The text, and the cache behind it. -/
def formatToolResultForHistory (env : Environment) (cache : ReadFileRollupCache) (name : String)
    (input : Value) (result : Except String String) : String × ReadFileRollupCache :=
  match result with
  | .error error => (formatToolErrorForModelContext env name input error, cache)
  | .ok output =>
    if name = "read_file" then
      let (summary, cache) := cache.summarize env.hashContent (readPath input) output
      (formatReadFileResultForModelContext (readPath input) output summary, cache)
    else if shouldEnrichToolResult name output then
      (formatGenericToolResultForModelContext env name input output, cache)
    else (output, cache)

end Vexcoder.Conversation

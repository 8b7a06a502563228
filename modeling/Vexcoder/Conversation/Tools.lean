import Vexcoder.Conversation.Messages
import Vexcoder.Conversation.ToolPreview
import Vexcoder.Task.Document

/-!
# Tools

How the conversation classifies tool calls, which calls it answers itself, and the texts it renders
for them.
-/

namespace Vexcoder.Conversation

open Base Vexcoder.Task

/-! ### Kinds of tools -/

def isReadOnlyToolName (name : String) : Bool :=
  name ∈ ["read_file", "search", "search_files", "search_content", "find_files", "codebase_search",
    "list_files", "list_directory", "list_dir", "glob_files", "git_status", "git_diff", "git_log",
    "git_show"]

def toolCanRunInParallel (name : String) : Bool := isReadOnlyToolName name

def toolRequiresConfirmation (name : String) : Bool :=
  if Text.startsWith name "mcp." then true
  else name ∈ ["write_file", "apply_patch", "edit_file", "rename_file", "git_add", "git_commit",
    "run_command", "run_shell_command", "bash", "call_command", "call_bash"]

def ContentBlock.callsTool (p : String → Bool) : ContentBlock → Bool
  | .toolUse _ name _ => p name
  | _ => false

def isReadOnlyToolRound (blocks : List ContentBlock) : Bool :=
  blocks.all (ContentBlock.callsTool isReadOnlyToolName)

def isParallelSafeToolRound (blocks : List ContentBlock) : Bool :=
  !blocks.isEmpty && blocks.all (ContentBlock.callsTool toolCanRunInParallel)

def shouldParallelizeToolRound (blocks : List ContentBlock) (requireToolApproval : Bool) : Bool :=
  !requireToolApproval && 1 < blocks.length && isParallelSafeToolRound blocks

def isMutatingToolRound (blocks : List ContentBlock) : Bool :=
  blocks.any (ContentBlock.callsTool toolRequiresConfirmation)

def toolRoundSignature (toJson : Value → List Char) (blocks : List ContentBlock) : List String :=
  blocks.filterMap fun block =>
    match block with
    | .toolUse _ name input => some (name ++ ":" ++ String.ofList (toJson input))
    | _ => none

/-! ### Calls that are answered without running the tool -/

def missingLocation (input : Value) (keys : List String) : Bool :=
  match firstToolString input keys with
  | none => true
  | some value => Text.isEmpty (Text.trim value)

def missingTargetPath (input : Value) : Bool :=
  missingLocation input ["path", "file_path", "file", "filename"]

def targetPathPrompt (action : String) : String :=
  "I need the target file path before " ++ action ++ ". Please provide an explicit path like " ++
    "`src/calculator.rs`. No file changes were made."

def missingMutatingLocationPrompt (name : String) (input : Value) : Option String :=
  match name with
  | "write_file" =>
    if missingTargetPath input then some (targetPathPrompt "creating a file") else none
  | "apply_patch" =>
    if missingTargetPath input then some (targetPathPrompt "applying a patch") else none
  | "edit_file" =>
    if missingTargetPath input then some (targetPathPrompt "editing a file") else none
  | "rename_file" =>
    if missingLocation input ["old_path", "from", "source_path"] ||
        missingLocation input ["new_path", "to", "target_path"] then
      some ("I need both source and destination file paths before renaming. Please provide " ++
        "`old_path` and `new_path`. No file changes were made.")
    else none
  | _ => none

def missingReadOnlyLocationPrompt (name : String) (input : Value) : Option String :=
  match name with
  | "read_file" =>
    if missingTargetPath input then
      some ("I need an explicit file path before reading a file. If the user referenced a file with " ++
        "`@` or a `[file: ...]` block, extract that exact path and reuse the embedded content when " ++
        "it is sufficient; otherwise call `read_file` or `search_files` with that concrete path for " ++
        "targeted inspection. Do not invent a substitute filename or retry without a non-empty " ++
        "`path`. No file changes were made.")
    else none
  | _ => none

/-- An occurrence of the hint that no letter or digit touches.  An occurrence that overlaps an
earlier one begins inside a word, so looking at all of them is looking at the disjoint ones. -/
def containsHintFrom (hint : List Char) : Option Char → List Char → Bool
  | _, [] => false
  | previous, c :: s =>
    (hint.isPrefixOf (c :: s) && !previous.any Char.isAlphanum &&
      !((c :: s).drop hint.length).head?.any Char.isAlphanum) || containsHintFrom hint (some c) s

def containsHint (normalized hint : String) : Bool :=
  containsHintFrom hint.toList none normalized.toList

def readOnlyHints : List String :=
  ["show", "read", "list", "count", "how many", "read-only", "read only", "readonly", "review only",
    "no changes", "without changes", "do not change", "don't change", "do not modify",
    "don't modify", "what is in", "what's in", "whats in", "content of", "status", "diff", "log",
    "cat", "display", "print"]

def mutatingHints : List String :=
  ["write", "edit", "update", "create", "add", "delete", "remove", "rename", "move", "commit",
    "stage", "patch", "apply", "implement", "refactor", "fix", "push", "rebase"]

def isReadOnlyUserRequest (env : Environment) (input : String) : Bool :=
  if env.var "VEX_FORCE_MUTATING_TURN" = some "1" then false
  else
    let normalized := Text.toAsciiLowercase input
    readOnlyHints.any (containsHint normalized) && !mutatingHints.any (containsHint normalized)

def mutatingToolReadOnlyConflictPrompt (env : Environment) (userInput toolName : String) :
    Option String :=
  if !toolRequiresConfirmation toolName || !isReadOnlyUserRequest env userInput then none
  else
    some ("Blocked mutating tool call `" ++ toolName ++ "` because this request appears " ++
      "read-only. Use read-only tools (`read_file`, `search_files`, `list_files`, `list_dir`, " ++
      "`glob_files`, `git_status`, `git_diff`, `git_log`, `git_show`) and answer from those " ++
      "results. No file changes were made.")

def patchLinePath (line : String) : Option String :=
  ((Text.stripPrefix line "+++ b/").or (Text.stripPrefix line "--- a/")).or
    ((Text.stripPrefix line "diff --git a/").bind fun rest =>
      (Text.splitOnce rest " b/").map Prod.snd)

def extractApplyPatchTargetPath (content : String) : Option String :=
  (Text.lines content).findSome? fun line =>
    (patchLinePath line).bind fun path =>
      let normalized := Text.trim path
      if Text.isEmpty normalized || normalized = "/dev/null" then none else some normalized

def mutatingToolTargetPaths (toolName : String) (input : Value) : List String :=
  let target := firstToolString input ["path", "file_path", "file", "filename"]
  match toolName with
  | "write_file" | "edit_file" => target.toList
  | "apply_patch" =>
    target.toList ++ ((firstToolString input ["content", "patch", "diff"]).bind
      extractApplyPatchTargetPath).toList
  | "rename_file" =>
    (firstToolString input ["old_path", "from", "source_path"]).toList ++
      (firstToolString input ["new_path", "to", "target_path"]).toList
  | _ => []

def isTestTargetPath (path : String) : Bool :=
  let normalized := Text.toAsciiLowercase
    (String.ofList ((trim path.toList).map fun c => if c = '\\' then '/' else c))
  if Text.isEmpty normalized then false
  else
    let segments := (splitOn '/' normalized.toList).map String.ofList
    let fileName := segments.getLastD normalized
    segments.any (fun segment => segment ∈ ["test", "tests", "__tests__"]) ||
      fileName ∈ ["test.rs", "tests.rs"] ||
      ["test_", "spec_"].any (Text.startsWith fileName) ||
      [".test.", ".spec."].any (Text.contains fileName) ||
      ["_test.rs", "_tests.rs", "_test.py", "_test.go", "_test.js", "_test.jsx", "_test.ts",
        "_test.tsx", "_spec.rb"].any (Text.endsWith fileName)

def testsOnlyMutationConflictPrompt (policy : PulseToolPolicy) (toolName : String)
    (input : Value) : Option String :=
  if policy ≠ .testsOnlyMutations then none
  else
    (mutatingToolTargetPaths toolName input).find? (fun path => !isTestTargetPath path) |>.map
      fun blockedPath =>
        "Dropped non-test patch target `" ++ blockedPath ++ "` for /generate-tests. This command " ++
          "may only modify test files or paths under `test/` or `tests/`. Use `/edit` for " ++
          "source-file changes."

/-! ### Texts for the model -/

def toolInputPreview (env : Environment) (toolName : String) (input : Value) : String :=
  previewToolInput env toolName input .compact defaultEditDiffContextLines

def textProtocolValue (toJson : Value → List Char) : Value → String
  | .string text => text
  | value => String.ofList (toJson value)

/-- The members of an object come in the order of their keys. -/
def renderToolCallForTextProtocol (toJson : Value → List Char) (name : String) (input : Value) :
    String :=
  let parameters := match input with
    | .object members => members.map fun (key, value) =>
      "<parameter=" ++ key ++ ">\n" ++ textProtocolValue toJson value ++ "\n</parameter>\n"
    | _ => []
  "<function=" ++ name ++ ">\n" ++ Text.join "" parameters ++ "</function>"

def renderToolCallsForTextProtocol (toJson : Value → List Char) (blocks : List ContentBlock) :
    String :=
  Text.join "\n" (blocks.filterMap fun block =>
    match block with
    | .toolUse _ name input => some (renderToolCallForTextProtocol toJson name input)
    | _ => none)

def renderToolCallsForHistory (env : Environment) (blocks : List ContentBlock) : String :=
  Text.join "\n" (blocks.filterMap fun block =>
    match block with
    | .toolUse _ name input =>
      let preview := toolInputPreview env name input
      if Text.isEmpty (Text.trim preview) then some ("[tool call] " ++ name)
      else some ("[tool call] " ++ name ++ ": " ++ preview)
    | _ => none)

def renderLoopGuardMessage (lastAssistantText reason : String) : String :=
  let summary :=
    if Text.isEmpty (Text.trim lastAssistantText) then "No final assistant answer was produced."
    else lastAssistantText
  summary ++ "\n\n[loop guard] " ++ reason

def renderLoopLimitGuardMessage (lastAssistantText : String) (maxRounds : ℕ) : String :=
  renderLoopGuardMessage lastAssistantText
    ("Stopped after " ++ toString maxRounds ++ " tool rounds to prevent an infinite loop.")

def renderRepeatedToolGuardMessage (lastAssistantText : String) : String :=
  renderLoopGuardMessage lastAssistantText
    "Repeated identical read/search tool calls detected; stopped to prevent an infinite loop."

def renderRepeatedMutatingToolGuardMessage (lastAssistantText : String) : String :=
  renderLoopGuardMessage lastAssistantText
    ("Repeated identical mutating tool calls detected; stopped to prevent an infinite loop. Verify " ++
      "edit_file arguments include path, old_str, and new_str.")

def renderMissingToolEvidenceGuardMessage (lastAssistantText : String) : String :=
  renderLoopGuardMessage lastAssistantText
    "Model did not call any tool call required to answer this request with workspace evidence."

def renderToolDeniedMessage (toolName : String) : String :=
  if toolRequiresConfirmation toolName then
    "Stopped: approval denied for " ++ toolName ++ ". No file changes were made."
  else "Stopped: approval denied for " ++ toolName ++ ". No tool actions were performed."

def builtinSupportedGitToolsResponse (input : String) : Option String :=
  let normalized := Text.toAsciiLowercase input
  let asksGitCapabilities :=
    ["git tool", "git tools", "git command", "git commands"].any (Text.contains normalized) &&
      ["what", "which", "can you", "available"].any (Text.contains normalized)
  if !asksGitCapabilities then none
  else some ("Built-in git tools available here: git_status, git_diff, git_log, git_show, git_add, " ++
    "git_commit.")

/-! ### The core policy -/

def toolRetryInstruction : String :=
  "Your previous answer did not call any tool call. This request requires tool-backed evidence from " ++
    "the workspace. Call the appropriate tool now before answering."

def repeatedToolRoundInstruction : String :=
  "You repeated the same read/search tool call with unchanged arguments. Do not repeat identical " ++
    "tool calls. Use existing tool results to answer now. Only call a different tool if new evidence " ++
    "is required."

def finalAnswerInstruction : String :=
  "You have reached the tool-call budget for this turn. Stop calling tools and write your final " ++
    "answer now using the information already gathered. Summarize the relevant findings and respond " ++
    "directly to the user's request."

def toolRequiredHints : List String :=
  ["file", "files", "directory", "directories", "tree", "repo", "repository", "cargo.toml",
    "readme", "docs/", "src/", "tests/", "version", "versions", "pinned", "count", "how many",
    "list", "show", "search", "find", "path", "line", "content of", "what's in", "whats in",
    "what is in", "read it again", "read again"]

def requestRequiresToolEvidence (input : String) : Bool :=
  toolRequiredHints.any (Text.contains (Text.toAsciiLowercase input))

def isContextOverflow (body : String) : Bool :=
  ["exceeds the available context size", "exceeds context", "context length exceeded",
    "maximum context length", "context window"].any (Text.contains (Text.toAsciiLowercase body))

end Vexcoder.Conversation

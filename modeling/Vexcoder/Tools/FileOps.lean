import Vexcoder.Tools.Paths

/-!
# The file tools

`write_file`, `propose_patch`, `apply_patch`, `edit_file` and `rename_file`.  Each says which locations
it creates, overwrites or removes, next to its result.
-/

namespace Vexcoder.Tools

open Base
open Lib.Search
open Lib.Files
open Lib.Files.FileSystem (Plain)

structure LocatedRead where
  startLine : ℕ
  endLine : ℕ

/-- The difference of two texts, and what the ledger of this run remembers of a file it has read. -/
structure EditHost where
  formatEditHunks : String → String → String → ℕ → String
  findPulseRead : FileSystem → Plain → Option LocatedRead

structure PendingPatch where
  diff : String
  newContent : String
  path : Plain

inductive WriteFileOutcome where
  | written
  | pending (patch : PendingPatch)

structure Outcome (α : Type) where
  touched : List Location := []
  result : Except ToolError α

def maxEditSnippetChars : ℕ := 2000

def maxEditSnippetLines : ℕ := 80

def editAnchorLinePad : ℕ := 3

/-- `fs::read_to_string` -/
def readToString (fs : FileSystem) (path : Plain) : Except IoError String :=
  match fs.canonicalize path with
  | .error e => .error e
  | .ok loc =>
    match fs.node loc with
    | some (.file content) => .ok content
    | _ => .error .isDirectory

/-- `Path::file_stem`: up to the last dot, unless the name starts there. -/
def fileStem (name : String) : List Char :=
  match rfindElem '.' name.toList with
  | some (i + 1) => name.toList.take (i + 1)
  | _ => name.toList

/-- `Path::with_extension` -/
def withExtension (path : Plain) (extension : String) : Plain :=
  match path.names with
  | [] => path
  | name :: up =>
    { path with names := String.ofList (fileStem name ++ '.' :: extension.toList) :: up }

/-- The loop of `str::match_indices`, which does not look inside a match. -/
def matchIndicesFrom (pat : List Char) : ℕ → ℕ → List Char → List ℕ
  | _, _, [] => []
  | skip + 1, position, _ :: s => matchIndicesFrom pat skip (position + 1) s
  | 0, position, c :: s =>
    if pat.isPrefixOf (c :: s) then position :: matchIndicesFrom pat (pat.length - 1) (position + 1) s
    else matchIndicesFrom pat 0 (position + 1) s

def matchIndices (content oldStr : String) : List ℕ :=
  matchIndicesFrom oldStr.toList 0 0 content.toList

/-- The content with the match at an offset replaced. -/
def replaceAt (content oldStr newStr : String) (offset : ℕ) : String :=
  String.ofList (content.toList.take offset ++ newStr.toList ++
    content.toList.drop (offset + oldStr.toList.length))

/-- The loop of `anchored_unique_replacement`: the one match in the window. -/
def anchoredOffset (content : List Char) (windowStart windowEnd : ℕ) : ℕ → ℕ → Option ℕ → List ℕ → Option ℕ
  | _, _, candidate, [] => candidate
  | scannedTo, currentLine, candidate, offset :: offsets =>
    let between := (content.drop scannedTo).take (offset - scannedTo)
    let currentLine := currentLine + between.count '\n'
    if windowStart ≤ currentLine && currentLine ≤ windowEnd then
      if candidate.isSome then none
      else anchoredOffset content windowStart windowEnd offset currentLine (some offset) offsets
    else anchoredOffset content windowStart windowEnd offset currentLine candidate offsets

def anchoredUniqueReplacement (host : EditHost) (fs : FileSystem) (resolved : Plain)
    (content oldStr newStr : String) : Option String :=
  match host.findPulseRead fs resolved with
  | none => none
  | some anchor =>
    let windowStart := anchor.startLine - editAnchorLinePad
    let windowEnd := anchor.endLine + editAnchorLinePad
    (anchoredOffset content.toList windowStart windowEnd 0 1 none
      (matchIndices content oldStr)).map (replaceAt content oldStr newStr)

namespace ToolOperator

variable (op : ToolOperator) (host : EditHost) (fs : FileSystem)

def directoryError (tool path : String) : ToolError :=
  .message (tool ++ " expected a file path, got a directory: " ++ path)

def proposePatch (path oldContent newContent : String) : Except ToolError PendingPatch :=
  match op.resolvePath fs path with
  | .error e => .error e
  | .ok resolved =>
    if fs.isDir resolved then .error (directoryError "propose_patch" path)
    else
      .ok {
        diff := host.formatEditHunks oldContent newContent "" 2
        newContent
        path := resolved }

/-- A call of `fs::write` that ends a tool. -/
def writeResolved {α : Type} (fs : FileSystem) (touched : List Location) (resolved : Plain)
    (content text : String) (done : α) : Outcome α :=
  match fs.write resolved content with
  | .error e => { touched, result := .error (.context text e) }
  | .ok (_, loc) => { touched := touched ++ [loc], result := .ok done }

def createParent (fs : FileSystem) (path : Plain) : FileSystem × List Location × Except IoError Unit :=
  match path.parent with
  | none => (fs, [], .ok ())
  | some parent => fs.createDirAll parent.absolute parent.names

def writeFile (path content : String) : Outcome WriteFileOutcome :=
  match op.resolvePath fs path with
  | .error e => { result := .error e }
  | .ok resolved =>
    if fs.isDir resolved then { result := .error (directoryError "write_file" path) }
    else if fs.exists? resolved then
      let oldContent := (readToString fs resolved).toOption.getD ""
      { result := (op.proposePatch host fs path oldContent content).map .pending }
    else
      match createParent fs resolved with
      | (_, made, .error e) => { touched := made, result := .error (.io e) }
      | (fs, made, .ok ()) =>
        writeResolved fs made resolved content "Failed to write file" .written

def applyPatch (pending : PendingPatch) : Outcome Unit :=
  match op.ensurePathIsWithinWorkspace fs pending.path with
  | .error e => { result := .error e }
  | .ok () =>
    let tempPath := withExtension pending.path "tmp"
    match fs.write tempPath pending.newContent with
    | .error e =>
      { result := .error (.context ("Failed to write temp file: " ++ display tempPath) e) }
    | .ok (fs, loc) =>
      match fs.rename tempPath pending.path with
      | .error e =>
        { touched := [loc]
          result := .error (.context ("Failed to apply patch to: " ++ display pending.path) e) }
      | .ok locations => { touched := loc :: locations, result := .ok () }

def editSnippetsTooLarge (oldStr newStr : String) : Bool :=
  maxEditSnippetChars < Text.charCount oldStr || maxEditSnippetChars < Text.charCount newStr ||
    maxEditSnippetLines < (Text.lines oldStr).length ||
    maxEditSnippetLines < (Text.lines newStr).length

def editedContent (resolved : Plain) (content oldStr newStr : String) : Except ToolError String :=
  if Text.isEmpty (Text.trim oldStr) then
    .error (.message "edit_file requires a non-empty old_str")
  else if editSnippetsTooLarge oldStr newStr then
    .error (.message
      ("edit_file requires focused snippets; old_str/new_str are too large (max " ++
        toString maxEditSnippetChars ++ " chars or " ++ toString maxEditSnippetLines ++
        " lines each)"))
  else if oldStr = content then
    .error (.message
      ("edit_file refuses full-file replacement; " ++
        "provide a focused old_str snippet instead"))
  else
    match matchIndices content oldStr with
    | [] => .error (.message ("String '" ++ oldStr ++ "' not found in file"))
    | [offset] => .ok (replaceAt content oldStr newStr offset)
    | occurrences =>
      match anchoredUniqueReplacement host fs resolved content oldStr newStr with
      | some anchored => .ok anchored
      | none =>
        .error (.message
          ("String '" ++ oldStr ++ "' appears " ++ toString occurrences.length ++
            " times; must be unique"))

def editFile (path oldStr newStr : String) : Outcome Unit :=
  match op.resolvePath fs path with
  | .error e => { result := .error e }
  | .ok resolved =>
    if fs.isDir resolved then { result := .error (directoryError "edit_file" path) }
    else
      match readToString fs resolved with
      | .error e => { result := .error (.context "Failed to read file for edit" e) }
      | .ok content =>
        match editedContent host fs resolved content oldStr newStr with
        | .error e => { result := .error e }
        | .ok newContent => writeResolved fs [] resolved newContent "Failed to edit file" ()

def renameFile (oldPath newPath : String) : Outcome String :=
  match op.resolvePath fs oldPath with
  | .error e => { result := .error e }
  | .ok source =>
    match op.resolvePath fs newPath with
    | .error e => { result := .error e }
    | .ok target =>
      if !fs.exists? source then
        { result := .error (.message
            ("Failed to rename file: source '" ++ oldPath ++ "' does not exist")) }
      else if source = target then
        { result := .ok ("Source and target are the same: " ++ oldPath) }
      else
        match createParent fs target with
        | (_, made, .error e) =>
          { touched := made
            result := .error (.context "Failed to create destination directory" e) }
        | (fs, made, .ok ()) =>
          match fs.rename source target with
          | .error e => { touched := made, result := .error (.context "Failed to rename file" e) }
          | .ok locations =>
            { touched := made ++ locations
              result := .ok ("Renamed " ++ oldPath ++ " -> " ++ newPath) }

end ToolOperator

end Vexcoder.Tools

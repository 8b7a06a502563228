import Mathlib.Data.Char
import Mathlib.Data.List.Lex
import Vexcoder.Config.Resolve
import Vexcoder.Lib.FileChanges
import Vexcoder.Lib.Refresh
import Vexcoder.Tools.IndexChunk
import Vexcoder.Tools.TestsOnly

/-!
# The structural index

`build_index_filtered` walks the workspace and takes the chunks of every source file it comes to, and
`update_index_filtered` takes out the chunks of one path and reads that path again.  `execute_tool` does
the second for the paths of a call that changes files, once the call has succeeded.
-/

namespace Vexcoder.Tools

open Base
open Vexcoder.Configuration (SearchConfig)
open Lib.Files
open Lib.Files.FileSystem (Plain)
open Lib.Refresh

inductive SourceLanguage where
  | rust
  | python
  | typeScript
  | tsx
  | javaScript

def detectSourceLanguage (path : List Component) : Option SourceLanguage :=
  -- A dot at the end of a path is not its file name.
  match (path.filter (· != .curDir)).getLast? with
  | some (.normal name) =>
    match extensionOf name with
    | some "rs" => some .rust
    | some "py" => some .python
    | some "ts" => some .typeScript
    | some "tsx" => some .tsx
    | some "js" | some "mjs" | some "cjs" | some "jsx" => some .javaScript
    | _ => none
  | _ => none

/-- What is found in the text of a file. -/
structure SourceItem where
  startLine : ℕ
  endLine : ℕ
  kind : ItemKind
  name : String
  parentScope : Option String
  source : String

/-- The parsers, and the matcher that is built from the text of a `.gitignore`. -/
structure IndexHost where
  extractItems : SourceLanguage → String → List SourceItem
  gitignore : String → String → Bool → Bool

def parseSourceFile (host : IndexHost) (relPath source : String) (language : SourceLanguage) :
    List IndexChunk :=
  (host.extractItems language source).map fun item =>
    { path := relPath
      startLine := item.startLine
      endLine := item.endLine
      kind := item.kind
      name := item.name
      parentScope := item.parentScope
      source := item.source }

/-- `WorkspaceIgnore::load`: whether a path is ignored, as a directory or not. -/
def loadIgnore (host : IndexHost) (fs : FileSystem) (workspaceRoot : Plain) : String → Bool → Bool :=
  match readToString fs (workspaceRoot.below [".gitignore"]) with
  | .ok content => host.gitignore content
  | .error _ => fun _ _ => false

/-! ### Paths below the workspace -/

/-- `replace('\\', "/")` -/
def slashed (text : String) : String :=
  String.ofList (text.toList.map fun c => if c = '\\' then '/' else c)

/-- `workspace_relative` of a path that was put together from names. -/
def relativeText (names : List String) : String := slashed (Text.join "/" names)

def isSkipped (piece : List Char) : Bool := piece.isEmpty || piece = ['.']

/-- What stands between the slashes of a path, from its first name to its last. -/
def writtenPieces (path : String) : List String :=
  (((splitOn '/' path.toList).dropWhile isSkipped).rdropWhile isSkipped).map String.ofList

/-- `workspace_relative` of a path as it was written. -/
def workspaceRelative (path : String) : String := relativeText (writtenPieces path)

/-! ### The walk -/

/-- `fs::read_dir`, sorted. -/
def readDir (fs : FileSystem) (path : Plain) : List String :=
  match fs.canonicalize path with
  | .error _ => []
  | .ok loc =>
    let found := (Lib.Assoc.keys fs.entries).filterMap fun key =>
      if key.dropLast = loc then key.getLast? else none
    found.dedup.insertionSort fun name name' => name.toList ≤ name'.toList

/-- The loop over the stack, whose last entry comes first. -/
def ToolOperator.walkWorkspaceFilesIgnoring (op : ToolOperator) (fs : FileSystem) (root : Plain)
    (ignore : String → Bool → Bool) : ℕ → List String → List (List String)
  | 0, _ => []
  | fuel + 1, names =>
    let path := root.below names
    match op.ensurePathIsWithinWorkspace fs path with
    | .error _ => []
    | .ok () =>
      let isDir := fs.isDir path
      let rel := relativeText names
      if !Text.isEmpty rel && ignore rel isDir then []
      else if isDir then
        let entriesInDir := (readDir fs path).filter fun name =>
          (op.ensurePathIsWithinWorkspace fs (root.below (names ++ [name]))).isOk
        entriesInDir.reverse.flatMap fun name =>
          op.walkWorkspaceFilesIgnoring fs root ignore fuel (names ++ [name])
      else [names]

/-- Steps enough for every path that leads to a directory, and one more. -/
def walkFuel (fs : FileSystem) : ℕ := (FileSystem.maxLinks + 1) * (fs.depth + 1) + 1

/-! ### The index -/

/-- `exclude.iter().any(..)` -/
def isExcluded (config : SearchConfig) (rel : String) : Bool := config.exclude.any (Text.startsWith rel)

/-- What the two functions do alike with a path that is not excluded. -/
def sourceChunks (host : IndexHost) (config : SearchConfig) (fs : FileSystem) (rel : String)
    (path : List Component) : List IndexChunk :=
  match detectSourceLanguage path with
  | none => []
  | some language =>
    -- The size of a directory does not matter, because it cannot be read.
    let size := match fs.readAt path with
      | .ok source => byteLen source.toList
      | .error _ => 0
    if config.maxFileSize < size then []
    else
      match fs.readAt path with
      | .ok source => parseSourceFile host rel source language
      | .error _ => []

def walkedChunks (host : IndexHost) (config : SearchConfig) (fs : FileSystem) (workspaceRoot : Plain)
    (names : List String) : List IndexChunk :=
  let rel := relativeText names
  if isExcluded config rel then []
  else sourceChunks host config fs rel (workspaceRoot.below names).components

def buildIndexFiltered (host : IndexHost) (config : SearchConfig) (fs : FileSystem)
    (workspaceRoot : Plain) : List IndexChunk :=
  let operator := ToolOperator.new fs workspaceRoot.components
  let ignore := loadIgnore host fs workspaceRoot
  let paths := operator.walkWorkspaceFilesIgnoring fs workspaceRoot ignore (walkFuel fs) []
  paths.flatMap (walkedChunks host config fs workspaceRoot)

/-- `Path::is_dir` of a path as it was written. -/
def isDirAt (fs : FileSystem) (path : List Component) : Bool :=
  match fs.lookupAt path with
  | .ok (.found loc) => fs.isDirectory loc
  | _ => false

def changedChunks (host : IndexHost) (config : SearchConfig) (fs : FileSystem) (workspaceRoot : Plain)
    (relPath : String) : List IndexChunk :=
  let changedPath := rawJoin workspaceRoot.components relPath
  let rel := workspaceRelative relPath
  if isExcluded config rel then []
  else if loadIgnore host fs workspaceRoot rel (isDirAt fs changedPath) then []
  else sourceChunks host config fs rel changedPath

def updateIndexFiltered (host : IndexHost) (config : SearchConfig) (fs : FileSystem)
    (workspaceRoot : Plain) (index : List IndexChunk) (relPath : String) : List IndexChunk :=
  refresh IndexChunk.path (workspaceRelative relPath)
    (changedChunks host config fs workspaceRoot relPath) index

def refreshCodebaseIndex (host : IndexHost) (config : SearchConfig) (fs : FileSystem)
    (workspaceRoot : Plain) (index : List IndexChunk) (relPath : String) : List IndexChunk :=
  if !config.enabled then index else updateIndexFiltered host config fs workspaceRoot index relPath

structure IndexedFiles where
  files : FileSystem
  index : List IndexChunk

/-- `execute_tool` with the index that it refreshes when a call has succeeded. -/
def executeIndexed (op : ToolOperator) (host : MutationHost) (indexHost : IndexHost)
    (config : SearchConfig) (workspaceRoot : Plain) (state : IndexedFiles) (call : ToolCall) :
    IndexedFiles × Except ToolError String :=
  match toolRequest call.tool call.input with
  | .error e => (state, .error e)
  | .ok request =>
    match executeRequest op host state.files request with
    | (files, .error e) => ({ state with files }, .error e)
    | (files, .ok text) =>
      let index := request.paths.foldl (refreshCodebaseIndex indexHost config files workspaceRoot) state.index
      ({ files, index }, .ok text)

/-! ### Chunks carry their path -/

theorem parseSourceFile_path {host : IndexHost} {relPath source : String} {language : SourceLanguage}
    {chunk : IndexChunk} (h : chunk ∈ parseSourceFile host relPath source language) :
    chunk.path = relPath := by
  obtain ⟨item, -, rfl⟩ := List.mem_map.mp h
  rfl

variable {host : IndexHost} {config : SearchConfig} {fs : FileSystem} {workspaceRoot : Plain}
  {chunk : IndexChunk}

theorem sourceChunks_of_error {rel : String} {path : List Component} {e : IoError}
    (h : fs.readAt path = .error e) : sourceChunks host config fs rel path = [] := by
  rw [sourceChunks, h]
  cases detectSourceLanguage path with
  | none => rfl
  | some language => exact ite_self []

theorem sourceChunks_path {rel : String} {path : List Component}
    (h : chunk ∈ sourceChunks host config fs rel path) : chunk.path = rel := by
  cases hread : fs.readAt path with
  | error e =>
    rw [sourceChunks_of_error hread] at h
    cases h
  | ok source =>
    rw [sourceChunks, hread] at h
    cases hlanguage : detectSourceLanguage path with
    | none =>
      rw [hlanguage] at h
      cases h
    | some language =>
      rw [hlanguage] at h
      dsimp only at h
      split at h
      · cases h
      · exact parseSourceFile_path h

theorem walkedChunks_path {names : List String}
    (h : chunk ∈ walkedChunks host config fs workspaceRoot names) :
    chunk.path = relativeText names := by
  rw [walkedChunks] at h
  split at h
  · cases h
  · exact sourceChunks_path h

theorem sourceChunks_congr {fs' : FileSystem} {rel : String} {path : List Component}
    (h : (fs'.readAt path).toOption = (fs.readAt path).toOption) :
    sourceChunks host config fs' rel path = sourceChunks host config fs rel path := by
  cases hread : fs.readAt path with
  | error e =>
    cases hread' : fs'.readAt path with
    | error e' => rw [sourceChunks_of_error hread, sourceChunks_of_error hread']
    | ok source =>
      rw [hread, hread'] at h
      cases h
  | ok source =>
    cases hread' : fs'.readAt path with
    | error e' =>
      rw [hread, hread'] at h
      cases h
    | ok source' =>
      rw [hread, hread'] at h
      cases h
      rw [sourceChunks, sourceChunks, hread, hread']

end Vexcoder.Tools

import Vexcoder.Base.Text
import Vexcoder.Lib.FileGuard

/-!
# Paths of the file tools

`resolve_path` turns the path string of a tool call into a path below the working directory and checks
where the nearest ancestor of it that exists really is: `ensure_path_is_within_workspace` succeeds
exactly when the guard lies inside.
-/

namespace Vexcoder.Tools

open Base
open Lib.Files
open Lib.Files.FileSystem (Plain)

inductive ToolError where
  | message (text : String)
  | io (e : IoError)
  | context (text : String) (e : IoError)
  deriving DecidableEq

structure ToolOperator where
  workingDir : List Component
  canonicalWorkingDir : List Component

/-- `Path::components` -/
def components (path : String) : List Component :=
  let pieces := splitOn '/' path.toList
  let root := if path.toList.head? = some '/' then [.rootDir] else []
  let start := if pieces.head? = some ['.'] then [.curDir] else []
  root ++ start ++ pieces.filterMap fun piece =>
    if piece.isEmpty || piece = ['.'] then none
    else if piece = ['.', '.'] then some .parentDir
    else some (.normal (String.ofList piece))

/-- `Path::join` with a relative path. -/
def join (dir relative : List Component) : List Component :=
  if dir.isEmpty then relative else dir ++ relative.filter (· != .curDir)

/-- `Path::display` -/
def display (path : Plain) : String :=
  (if path.absolute then "/" else "") ++ Text.join "/" path.names.reverse

def locationComponents (loc : Location) : List Component := .rootDir :: loc.map .normal

namespace ToolOperator

/-- `new`; a working directory that is not there is taken as it is written. -/
def new (fs : FileSystem) (workingDir : List Component) : ToolOperator :=
  { workingDir
    canonicalWorkingDir :=
      match fs.walk FileSystem.maxLinks fs.current workingDir with
      | .ok (.found loc, _) => if workingDir.isEmpty then workingDir else locationComponents loc
      | _ => workingDir }

variable (op : ToolOperator) (fs : FileSystem)

def countComponents (path : Plain) : ℕ := path.names.length + if path.absolute then 1 else 0

/-- One round of the loop of `normalize_path`. -/
def pushNormalized (out : Plain) : Component → Plain
  | .curDir => out
  | .normal name => { out with names := name :: out.names }
  | .parentDir =>
    if op.workingDir.length < countComponents out then { out with names := out.names.tail } else out
  | .rootDir => { names := [], absolute := true }

def normalizePath (path : List Component) : Plain :=
  path.foldl op.pushNormalized { names := [], absolute := false }

def nearestExistingAncestor (absolute : Bool) : List String → Option Plain
  | [] => if fs.exists? { names := [], absolute } then some { names := [], absolute } else none
  | name :: up =>
    if fs.exists? { names := name :: up, absolute } then some { names := name :: up, absolute }
    else nearestExistingAncestor absolute up

/-- `canonical_guard.starts_with(&self.canonical_working_dir)` -/
def inside (loc : Location) : Bool := op.canonicalWorkingDir.isPrefixOf (locationComponents loc)

def ensurePathIsWithinWorkspace (path : Plain) : Except ToolError Unit :=
  match
    if fs.exists? path then some path else nearestExistingAncestor fs path.absolute path.names with
  | none => .error (.message "Security error: could not find an existing parent path")
  | some guardPath =>
    match fs.canonicalize guardPath with
    | .error e => .error (.context ("Failed to canonicalize " ++ display guardPath) e)
    | .ok canonicalGuard =>
      if !op.inside canonicalGuard then
        .error (.message
          ("Security error: path escapes working directory via symlink or traversal: " ++
            display path))
      else .ok ()

def resolvePath (path : String) : Except ToolError Plain :=
  let path := Text.trim path
  if Text.isEmpty path then .error (.message "Path cannot be empty")
  else if Text.startsWith path "/" || path.toList.any (· == '\\') then
    .error (.message
      ("Security error: absolute or platform-specific path not allowed: " ++ path))
  else if (components path).any (· == .parentDir) then
    .error (.message ("Security error: path traversal detected: " ++ path))
  else
    let requested := join op.workingDir (components path)
    let normalized := op.normalizePath requested
    match op.ensurePathIsWithinWorkspace fs normalized with
    | .error e => .error e
    | .ok () => .ok normalized

/-! ### The guard -/

variable {op : ToolOperator} {fs : FileSystem}

theorem nearestExistingAncestor_canonical (absolute : Bool) (names : List String) {loc : Location} :
    fs.guard absolute names = some loc ↔
      ∃ guardPath, nearestExistingAncestor fs absolute names = some guardPath ∧
        fs.canonicalize guardPath = .ok loc := by
  induction names with
  | nil =>
    rw [FileSystem.guard, nearestExistingAncestor, FileSystem.exists?]
    cases hcanon : fs.canonicalize ⟨[], absolute⟩ with
    | error e => simp [Except.toOption, Except.isOk, Except.toBool]
    | ok loc' => simp [Except.toOption, Except.isOk, Except.toBool, hcanon]
  | cons name up ih =>
    rw [FileSystem.guard, nearestExistingAncestor, FileSystem.exists?]
    cases hcanon : fs.canonicalize ⟨name :: up, absolute⟩ with
    | error e => exact ih
    | ok loc' => simp [Except.isOk, Except.toBool, hcanon]

/-- **The check is about the guard.** -/
theorem ensure_ok_iff {path : Plain} :
    op.ensurePathIsWithinWorkspace fs path = .ok () ↔
      ∃ loc, fs.guard path.absolute path.names = some loc ∧ op.inside loc = true := by
  have hancestor : (if fs.exists? path then some path
      else nearestExistingAncestor fs path.absolute path.names) =
      nearestExistingAncestor fs path.absolute path.names := by
    obtain ⟨names, absolute⟩ := path
    cases hexists : fs.exists? ⟨names, absolute⟩ with
    | false => rfl
    | true =>
      cases names with
      | nil => rw [nearestExistingAncestor, hexists]; rfl
      | cons name up => rw [nearestExistingAncestor, hexists]; rfl
  rw [ensurePathIsWithinWorkspace, hancestor]
  simp only [nearestExistingAncestor_canonical]
  cases nearestExistingAncestor fs path.absolute path.names with
  | none => simp
  | some guardPath =>
    cases hcanon : fs.canonicalize guardPath with
    | error e => simp [hcanon]
    | ok loc =>
      cases hinside : op.inside loc with
      | false => simp [hcanon, hinside]
      | true => simp [hcanon, hinside]

theorem resolvePath_guard {path : String} {resolved : Plain} (h : op.resolvePath fs path = .ok resolved) :
    ∃ loc, fs.guard resolved.absolute resolved.names = some loc ∧ op.inside loc = true := by
  rw [resolvePath] at h
  dsimp only at h
  split at h
  · cases h
  split at h
  · cases h
  split at h
  · cases h
  split at h
  · cases h
  rename_i hensure
  cases h
  exact ensure_ok_iff.mp hensure

theorem inside_iff {loc : Location} :
    op.inside loc = true ↔ op.canonicalWorkingDir <+: locationComponents loc :=
  List.isPrefixOf_iff_prefix

theorem inside_append {loc : Location} (h : op.inside loc = true) (rest : List String) :
    op.inside (loc ++ rest) = true := by
  rw [inside_iff] at h ⊢
  refine h.trans ?_
  rw [locationComponents, locationComponents, List.map_append]
  exact List.prefix_append _ _

theorem inside_dir {dir : Location} {name name' : String} (hne : name ≠ name')
    (h : op.inside (dir ++ [name]) = true) (h' : op.inside (dir ++ [name']) = true) :
    op.inside dir = true := by
  have hconcat : ∀ name, locationComponents (dir ++ [name]) =
      locationComponents dir ++ [.normal name] := fun name => by
    rw [locationComponents, locationComponents, List.map_append]
    rfl
  rw [inside_iff, hconcat] at h h'
  rw [inside_iff]
  rcases List.prefix_concat_iff.mp h with heq | h
  · rcases List.prefix_concat_iff.mp h' with heq' | h'
    · have hlast := List.append_cancel_left (heq.symm.trans heq')
      cases hlast
      exact absurd rfl hne
    · exact h'
  · exact h

end ToolOperator

end Vexcoder.Tools

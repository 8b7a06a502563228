import Mathlib.Data.List.Sort
import Vexcoder.Base.Text
import Vexcoder.Task.StateFile

/-!
# The state files of the search directories

A disk gives the entries of a directory in the order in which they are listed, and what stands at the
path of a state file: the JSON value of its text, where it has one, and the length and the time that
tell whether it was written since.  The scan keeps at most `cap` files, one for each id, and lists them
from the newest to the oldest.  Room for `cap` files is asked for before the first is read: where their
bytes overflow, the call panics.
-/

namespace Vexcoder.Task

open Base

/-- The time is in nanoseconds from the epoch. -/
structure FileFingerprint where
  len : ℕ
  modified : ℤ
  deriving DecidableEq

structure DiskFile where
  value : Option Value
  fingerprint : FileFingerprint

structure DirEntry where
  name : String
  modified : ℤ

/-- A directory that cannot be listed has no entries. -/
structure Disk where
  entries : String → List DirEntry
  file : String → Option DiskFile

structure TaskStateFile where
  dir : String
  id : String
  modifiedMillis : ℕ
  deriving DecidableEq

def stateFilePath (dir id : String) : String := dir ++ "/" ++ id ++ ".json"

def TaskStateFile.path (file : TaskStateFile) : String := stateFilePath file.dir file.id

/-- `TaskState::load`; `now` is the clock. -/
def TaskState.loadFrom (disk : Disk) (now : ℕ) (path : String) : Option TaskState :=
  (disk.file path).bind fun file => file.value.bind fun value => TaskState.load value now

/-! ### The scan -/

def isWorkingSetFilename (name : String) : Bool :=
  Text.endsWith name ".working-set.json" || Text.endsWith name ".join.json"

/-- The stem of a name with the extension `json`. -/
def jsonStem (name : String) : Option String :=
  if Text.endsWith name ".json" then
    match name.toList.take (name.length - 5) with
    | [] => none
    | stem => some (String.ofList stem)
  else none

def stateFileOf (dir : String) (entry : DirEntry) : Option TaskStateFile :=
  if isWorkingSetFilename entry.name then none
  else (jsonStem entry.name).map fun id =>
    { dir, id, modifiedMillis := (entry.modified / 1000000).toNat }

def replaceOlder (file : TaskStateFile) : List TaskStateFile → List TaskStateFile
  | [] => []
  | existing :: rest =>
    if existing.id = file.id then
      (if file.modifiedMillis > existing.modifiedMillis then file else existing) :: rest
    else existing :: replaceOlder file rest

def insertBoundedStateFile (cap : ℕ) (selected : List TaskStateFile) (file : TaskStateFile) :
    List TaskStateFile :=
  if cap = 0 then selected
  else if selected.any fun existing => existing.id = file.id then replaceOlder file selected
  else if selected.length < cap then selected ++ [file]
  else match (selected.map TaskStateFile.modifiedMillis).min? with
    | none => selected
    | some oldest =>
      if file.modifiedMillis > oldest then
        selected.set (selected.findIdx fun existing => existing.modifiedMillis = oldest) file
      else selected

/-- The files that the scan visits, in its order; `dirs` are the search directories. -/
def visitedFiles (disk : Disk) (dirs : List String) : List TaskStateFile :=
  dirs.flatMap fun dir => (disk.entries dir).filterMap (stateFileOf dir)

/-- The files that are listed for those that were visited. -/
def listedFiles (cap : ℕ) (visited : List TaskStateFile) : List TaskStateFile :=
  (visited.foldl (insertBoundedStateFile cap) []).insertionSort fun file file' =>
    file'.modifiedMillis ≤ file.modifiedMillis

/-- What a scan lists that has room for it. -/
def scannedFiles (disk : Disk) (dirs : List String) (cap : ℕ) : List TaskStateFile :=
  listedFiles cap (visitedFiles disk dirs)

/-- `isize::MAX` -/
def isizeMax : ℕ := 2 ^ 63 - 1

/-- The bytes of a `TaskStateFile`: a path, an id and a `u128`. -/
def taskStateFileSize : ℕ := 64

/-- `Vec::with_capacity` does not panic. -/
def HasCapacity (cap : ℕ) : Prop := cap * taskStateFileSize ≤ isizeMax

instance (cap : ℕ) : Decidable (HasCapacity cap) := inferInstanceAs (Decidable (_ ≤ _))

/-- `state_files_from_with_limit`, nothing where the capacity for its vector overflows. -/
def stateFilesFromWithLimit (disk : Disk) (dirs : List String) (cap : ℕ) :
    Option (List TaskStateFile) :=
  if HasCapacity cap then some (scannedFiles disk dirs cap) else none

example :
    let entries (name : String) (seconds : ℤ) : DirEntry := ⟨name, seconds * 1000000000⟩
    let disk : Disk :=
      { entries := fun _ =>
          [entries "a.json" 1, entries "b.json" 3, entries "notes.md" 9, entries "b.join.json" 9,
            entries ".json" 9, entries "c.json" 2]
        file := fun _ => none }
    stateFilesFromWithLimit disk ["s"] 2 = some [⟨"s", "b", 3000⟩, ⟨"s", "c", 2000⟩] := by
  decide +kernel

end Vexcoder.Task

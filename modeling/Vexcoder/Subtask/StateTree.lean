import Mathlib.Data.List.MinMax
import Vexcoder.Subtask.AgentsConfig
import Vexcoder.Task.SavedStates
import Vexcoder.Task.StepIds

/-!
# State files by the place of their path

The state file of a task id is looked up by a path: the id may lead out of the directory, and two paths
may name one file.  A `Place` is what the system makes of a path.  A load fails for one of four reasons
(the disk policy, no file, no text, no task state), or does not end where the step ids run out; a save
writes to the path of the id *in* the state.
-/

namespace Vexcoder.Task

open Vexcoder.Runtime

namespace TaskState

/-! ### States but for the time of their update -/

/-- The state without the time of its last update. -/
def timeless (state : TaskState) : TaskState := { state with updatedAt := 0 }

def SameButTime (state state' : TaskState) : Prop := state.timeless = state'.timeless

def withTasks (state : TaskState) (sessionTasks : List SessionTask) : TaskState :=
  { state with sessionTasks }

/-- The second state is the first with session tasks that have these ids behind those it had. -/
def Adds (state state' : TaskState) (ids : List String) : Prop :=
  ∃ added : List SessionTask, added.map SessionTask.id = ids ∧
    SameButTime (state.withTasks (state.sessionTasks ++ added)) state'

variable {state state' loaded : TaskState}

theorem SameButTime.sessionTasks_eq (h : SameButTime state state') :
    state.sessionTasks = state'.sessionTasks := by
  show state.timeless.sessionTasks = state'.timeless.sessionTasks
  rw [h]

theorem SameButTime.withTasks (h : SameButTime state state') (sessionTasks : List SessionTask) :
    SameButTime (state.withTasks sessionTasks) (state'.withTasks sessionTasks) := by
  show state.timeless.withTasks sessionTasks = state'.timeless.withTasks sessionTasks
  rw [h]

theorem withTasks_self (state : TaskState) : state.withTasks state.sessionTasks = state := rfl

theorem adds_nil (state : TaskState) : Adds state state [] := by
  refine ⟨[], rfl, ?_⟩
  rw [List.append_nil]
  rfl

theorem Adds.of_same {start : TaskState} {ids : List String} (h : Adds start state' ids)
    (hsame : SameButTime state start) : Adds state state' ids := by
  obtain ⟨added, hids, hstate⟩ := h
  refine ⟨added, hids, ?_⟩
  rw [hsame.sessionTasks_eq]
  exact (hsame.withTasks _).trans hstate

theorem Adds.same {start : TaskState} {ids : List String} (h : Adds start state' ids)
    (h' : Adds state state' ids) : SameButTime state start := by
  obtain ⟨added, hids, hstate⟩ := h
  obtain ⟨added', hids', hstate'⟩ := h'
  have hsame : SameButTime (state.withTasks (state.sessionTasks ++ added'))
      (start.withTasks (start.sessionTasks ++ added)) := hstate'.trans hstate.symm
  have hlength : added'.length = added.length := by
    rw [← List.length_map, hids', ← hids, List.length_map]
  obtain ⟨htasks, -⟩ := List.append_inj' hsame.sessionTasks_eq hlength
  have hback := hsame.withTasks state.sessionTasks
  show state.timeless = start.timeless
  rw [← withTasks_self start, ← htasks]
  exact hback

/-- What is loaded of the state, with any session tasks, is the state but for its time. -/
def Settled (state : TaskState) : Prop :=
  ∀ (sessionTasks : List SessionTask) (updatedAt now : ℕ), ∃ again,
    ({ state with sessionTasks, updatedAt }).normalize now = some again ∧
      SameButTime (state.withTasks sessionTasks) again

/-- **A loaded state is settled**: loading leaves what a load has given. -/
theorem normalize_settled {now : ℕ} (h : state.normalize now = some loaded) : loaded.Settled := by
  intro sessionTasks updatedAt now'
  obtain ⟨pulses, hpulses, h⟩ := Option.bind_eq_some_iff.mp h
  cases h
  have hagain : normalizeToolInvocationStepIds pulses = some pulses :=
    normalizePulses_again hpulses Nat.one_ne_zero rfl
  have hcommands : ((state.commandHistory.map fun evidence =>
        if evidence.exitCode.isNone then { evidence with interrupted := true } else evidence).map
      fun evidence =>
        if evidence.exitCode.isNone then { evidence with interrupted := true } else evidence) =
      state.commandHistory.map fun evidence =>
        if evidence.exitCode.isNone then { evidence with interrupted := true } else evidence := by
    rw [List.map_map]
    refine List.map_congr_left fun evidence _ => ?_
    cases hexit : evidence.exitCode with
    | none | some code => simp [hexit]
  rw [normalize]
  rw [hagain, hcommands]
  exact ⟨_, rfl, rfl⟩

end TaskState

end Vexcoder.Task

namespace Vexcoder.Subtask

open Base Lib
open Vexcoder.Task

/-! ### The disk policy -/

inductive DiskPermission where
  | searchIndex
  | taskStateMap
  | forbidden
  deriving DecidableEq

inductive DiskPolicyMode where
  | off
  | warn
  | strict

/-- The text between the first two occurrences of `.vex/` decides. -/
def classifyVexSubpath (path : String) : DiskPermission :=
  let normalized := String.ofList (path.toList.map fun c => if c = '\\' then '/' else c)
  match Text.splitOnce normalized ".vex/" with
  | none => .forbidden
  | some (_, rest) =>
    let afterVex := ((Text.splitOnce rest ".vex/").map Prod.fst).getD rest
    if Text.startsWith afterVex "index/" || afterVex == "index" then .searchIndex
    else if Text.startsWith afterVex "state/" || afterVex == "state" then .taskStateMap
    else .forbidden

def checkPath (path : String) : DiskPermission :=
  if ".vex".toList ∈ splitOn '/' path.toList then classifyVexSubpath path
  else if Text.contains path ".vex\\" || Text.contains path ".vex/" then classifyVexSubpath path
  else .forbidden

/-- `disk_policy::enforce` -/
def enforce (path : String) (mode : DiskPolicyMode) : Except String DiskPermission :=
  let permission := checkPath path
  if permission ≠ .forbidden then .ok permission
  else
    match mode with
    | .off | .warn => .ok permission
    | .strict => .error ("forbidden disk access outside .vex/index or .vex/state: " ++ path)

/-! ### The tree -/

/-- What `read_to_string` and `serde_json` make of a file. -/
inductive StateText where
  | unreadable
  | malformed
  | state (state : TaskState)

structure StateFile where
  text : StateText
  /-- `cached_task_header` -/
  header : Option TaskStateHeader
  /-- In nanoseconds from the epoch. -/
  modified : ℤ

def StateFile.modifiedMillis (file : StateFile) : ℕ := (file.modified / 1000000).toNat

/-- What the system gives, besides the ids, the clock and the leases. -/
structure TreeHost (Place : Type) extends TaskHost where
  /-- The second search directory. -/
  legacyDir : Option String
  place : String → Place
  /-- The names that the entries of a directory have. -/
  readDir : (Place → Option StateFile) → String → List String
  policyMode : DiskPolicyMode
  /-- The time that a save gives to its file. -/
  modified : ℕ → ℤ
  saveError : ℕ → Option String
  /-- `create_dir_all` of the state directory and its lock file. -/
  delegateLock : Except String Unit
  /-- The files that `write_projection_rollup` writes, as far as it comes. -/
  rollups : ℕ → List Place
  /-- `StartupBudget::max_scans`; with a greater one every scan panics. -/
  maxScans : ℕ
  hasCapacity : HasCapacity maxScans := by decide

structure StateTree (Place : Type) where
  files : Place → Option StateFile
  /-- The session tasks begun so far. -/
  tick : ℕ := 0
  /-- The states saved so far. -/
  saves : ℕ := 0

/-- `dir.join(format!("{id}.json"))`: an absolute path takes the place of the directory. -/
def statePath (dir id : String) : String :=
  if Text.startsWith id "/" then id ++ ".json" else stateFilePath dir id

namespace StateTree

variable {Place : Type} (host : TreeHost Place)

/-- `state_search_dirs_from` -/
def searchDirs : List String :=
  host.stateDir :: (host.legacyDir.filter fun dir => dir ≠ host.stateDir).toList

def fileAt (tree : StateTree Place) (dir id : String) : Option StateFile :=
  tree.files (host.place (statePath dir id))

def isPermitted (path : String) : Bool := (enforce path host.policyMode).isOk

/-- `TaskState::load`, nothing when it does not end. -/
def load (tree : StateTree Place) (dir id : String) : Option (Except String TaskState) :=
  let path := statePath dir id
  match enforce path host.policyMode with
  | .error error => some (.error error)
  | .ok _ =>
    match (tree.fileAt host dir id).map StateFile.text with
    | none => some (.error ("Failed to read state file: " ++ path))
    | some .unreadable => some (.error ("Failed to read state file: " ++ path))
    | some .malformed => some (.error ("Failed to deserialize state file: " ++ path))
    | some (.state state) => (state.normalize (host.clock tree.tick)).map .ok

def headerOf (state : TaskState) : TaskStateHeader :=
  { id := state.id, modifiedMillis := state.updatedAt
    sessionTasks := some (state.sessionTasks.map SessionTask.summary) }

def savedFile (state : TaskState) (saves : ℕ) : StateFile :=
  { text := .state state, header := some (headerOf state), modified := host.modified saves }

/-- `TaskState::save` -/
def save [DecidableEq Place] (tree : StateTree Place) (dir : String) (state : TaskState) :
    StateTree Place × Except String Unit :=
  let path := statePath dir state.id
  match enforce path host.policyMode with
  | .error error => (tree, .error error)
  | .ok _ =>
    match host.saveError tree.saves with
    | some error => ({ tree with saves := tree.saves + 1 }, .error error)
    | none =>
      ({ tree with
          files := Function.update tree.files (host.place path) (some (savedFile host state tree.saves))
          saves := tree.saves + 1 }, .ok ())

/-- A list of tasks and no task state. -/
def rollupFile (saves : ℕ) : StateFile :=
  { text := .malformed, header := none, modified := host.modified saves }

def writeProjectionRollup [DecidableEq Place] (tree : StateTree Place) : StateTree Place :=
  { tree with
    files := fun place =>
      if place ∈ host.rollups tree.saves then some (rollupFile host tree.saves)
      else tree.files place }

/-! ### The scan -/

def entries (tree : StateTree Place) (dir : String) : List DirEntry :=
  (host.readDir tree.files dir).map fun name =>
    { name, modified := ((tree.files (host.place (dir ++ "/" ++ name))).map StateFile.modified).getD 0 }

/-- `state_files_from_with_limit` -/
def stateFiles (tree : StateTree Place) : List TaskStateFile :=
  listedFiles host.maxScans ((searchDirs host).flatMap fun dir =>
    (tree.entries host dir).filterMap (stateFileOf dir))

def listedSummaries (tree : StateTree Place) (file : TaskStateFile) : List SessionTaskSummary :=
  match (tree.files (host.place file.path)).bind StateFile.header with
  | some header => header.summaries
  | none => []

/-- `live_session_task_counts_from` -/
def liveCounts (tree : StateTree Place) : List (String × ℕ) :=
  ((tree.stateFiles host).flatMap (tree.listedSummaries host)).foldl countLive []

def liveCount (tree : StateTree Place) (agentId : String) : ℕ :=
  (Assoc.find? agentId (tree.liveCounts host)).getD 0

/-! ### The newest state of a task -/

def times (tree : StateTree Place) (place : Place) : Option ℕ :=
  (tree.files place).map StateFile.modifiedMillis

def filesOf (times : Place → Option ℕ) (id : String) : List TaskStateFile :=
  (searchDirs host).filterMap fun dir =>
    (times (host.place (statePath dir id))).map fun modifiedMillis => { dir, id, modifiedMillis }

/-- Of two files with one id the scan keeps the newer, and of two with one time the first. -/
def newestFile (times : Place → Option ℕ) (id : String) : Option TaskStateFile :=
  (filesOf host times id).argmax TaskStateFile.modifiedMillis

/-- The state that is loaded from the newest file of the id. -/
def newestState (tree : StateTree Place) (id : String) : Option TaskState :=
  match newestFile host tree.times id with
  | none => none
  | some file => (tree.load host file.dir id).bind Except.toOption

def HasFile (tree : StateTree Place) (id : String) : Prop :=
  ∃ dir ∈ searchDirs host, (tree.fileAt host dir id).isSome

variable {host} {tree tree' : StateTree Place} {dir id : String} {state : TaskState}

theorem load_ok_iff : tree.load host dir id = some (.ok state) ↔
    isPermitted host (statePath dir id) = true ∧ ∃ file stored,
      tree.fileAt host dir id = some file ∧ file.text = .state stored ∧
        stored.normalize (host.clock tree.tick) = some state := by
  rw [load, isPermitted]
  cases enforce (statePath dir id) host.policyMode with
  | error error => simp [Except.isOk, Except.toBool]
  | ok permission =>
    cases tree.fileAt host dir id with
    | none => simp
    | some file =>
      cases htext : file.text with
      | unreadable => simp [htext]
      | malformed => simp [htext]
      | state stored => simp [htext, Except.isOk, Except.toBool]

theorem newestState_eq_some_iff : tree.newestState host id = some state ↔
    ∃ file, newestFile host tree.times id = some file ∧ tree.load host file.dir id = some (.ok state) := by
  rw [newestState]
  cases newestFile host tree.times id with
  | none => simp
  | some file =>
    cases hload : tree.load host file.dir id with
    | none => simp [hload]
    | some loaded =>
      cases loaded with
      | error error => simp [hload, Except.toOption]
      | ok state' => simp [hload, Except.toOption]

theorem newestFile_mem {times : Place → Option ℕ} {file : TaskStateFile}
    (h : newestFile host times id = some file) : file.dir ∈ searchDirs host := by
  obtain ⟨dir, hdir, hfile⟩ := List.mem_filterMap.mp (List.argmax_mem h)
  obtain ⟨_, -, rfl⟩ := Option.map_eq_some_iff.mp hfile
  exact hdir

/-! ### After a save -/

variable [DecidableEq Place]

section Saving

variable (host) (tree) (state) (rolled : List Place)

def target : Place := host.place (statePath host.stateDir state.id)

/-- The files after a save, and after the rollups that follow it. -/
def filesAfter (place : Place) : Option StateFile :=
  if place ∈ rolled then some (rollupFile host (tree.saves + 1))
  else Function.update tree.files (target host state) (some (savedFile host state tree.saves)) place

def timesAfter (start : TaskState) (place : Place) : Option ℕ :=
  if place ∈ rolled then some (host.modified (tree.saves + 1) / 1000000).toNat
  else if place = target host start then some (host.modified tree.saves / 1000000).toNat
  else tree.times place

/-- The file that the save writes is the newest one of the task, may be read, and stays. -/
def StaysNewest (id : String) (start : TaskState) : Prop :=
  ∃ file, newestFile host (timesAfter host tree rolled start) id = some file ∧
    host.place (statePath file.dir id) = target host start ∧
    isPermitted host (statePath file.dir id) = true ∧ target host start ∉ rolled

/-- No state of the task in the search directories has a session task with one of these ids. -/
def FreshIds (id : String) (ids : List String) : Prop :=
  ∀ dir ∈ searchDirs host, ∀ file stored, tree.fileAt host dir id = some file →
    file.text = .state stored → ∀ task ∈ stored.sessionTasks, task.id ∉ ids

end Saving

variable {rolled : List Place} {start : TaskState} {ids : List String}

theorem times_after (hfiles : tree'.files = filesAfter host tree state rolled)
    (hid : state.id = start.id) : tree'.times = timesAfter host tree rolled start := by
  funext place
  have htarget : target host state = target host start := by rw [target, target, hid]
  rw [times, hfiles, filesAfter, timesAfter, htarget]
  by_cases hrolled : place ∈ rolled
  · rw [if_pos hrolled, if_pos hrolled]
    rfl
  rw [if_neg hrolled, if_neg hrolled]
  by_cases hplace : place = target host start
  · rw [if_pos hplace, hplace, Function.update_self]
    rfl
  · rw [if_neg hplace, Function.update_of_ne hplace]
    rfl

theorem adds_id (h : TaskState.Adds start state ids) : state.id = start.id := by
  obtain ⟨added, -, hstate⟩ := h
  show state.timeless.id = (start.withTasks (start.sessionTasks ++ added)).timeless.id
  rw [hstate]

theorem saved_settles (h : TaskState.Adds start state ids) (hsettled : start.Settled) (now : ℕ) :
    ∃ again, state.normalize now = some again ∧ TaskState.Adds start again ids := by
  obtain ⟨added, hids, hstate⟩ := h
  obtain ⟨again, hagain, hsame⟩ := hsettled (start.sessionTasks ++ added) state.updatedAt now
  refine ⟨again, ?_, added, hids, hsame⟩
  have heq : state = { start with
      sessionTasks := start.sessionTasks ++ added, updatedAt := state.updatedAt } := by
    have hback : { state.timeless with updatedAt := state.updatedAt } = state := rfl
    rw [← hback, ← hstate]
    rfl
  rw [heq]
  exact hagain

/-- **The newest state after a save** is the one before with the tasks that were added exactly when the
save started from that one and wrote what is the newest file then. -/
theorem newestState_written (hfiles : tree'.files = filesAfter host tree state rolled)
    (hadds : TaskState.Adds start state ids) (hids : ids ≠ []) (hsettled : start.Settled)
    (hfresh : FreshIds host tree id ids) :
    (∃ before after, tree.newestState host id = some before ∧
        tree'.newestState host id = some after ∧ TaskState.Adds before after ids) ↔
      (∃ before, tree.newestState host id = some before ∧ TaskState.SameButTime before start) ∧
        StaysNewest host tree rolled id start := by
  have htarget : target host state = target host start := by rw [target, target, adds_id hadds]
  obtain ⟨again, hagain, hread⟩ := saved_settles hadds hsettled (host.clock tree'.tick)
  constructor
  · rintro ⟨before, after, hbefore, hafter, hadded⟩
    obtain ⟨file, hfile, hload⟩ := newestState_eq_some_iff.mp hafter
    obtain ⟨hpermitted, found, stored, hfound, htext, hstored⟩ := load_ok_iff.mp hload
    rw [fileAt, hfiles, filesAfter] at hfound
    have hrolled : host.place (statePath file.dir id) ∉ rolled := by
      intro hmem
      rw [if_pos hmem] at hfound
      cases hfound
      cases htext
    rw [if_neg hrolled, htarget] at hfound
    have hplace : host.place (statePath file.dir id) = target host start := by
      by_contra hne
      rw [Function.update_of_ne hne] at hfound
      obtain ⟨added, hnew, hsame⟩ := hadded
      -- a file that was there has none of the new tasks
      obtain ⟨new, hmem⟩ := List.exists_mem_of_ne_nil ids hids
      rw [← hnew] at hmem
      obtain ⟨task, htask, rfl⟩ := List.mem_map.mp hmem
      have hkept : task ∈ stored.sessionTasks := by
        rw [← (TaskState.normalize_keeps hstored).2, ← hsame.sessionTasks_eq]
        exact List.mem_append_right _ htask
      refine hfresh file.dir (newestFile_mem hfile) found stored hfound htext task hkept ?_
      rw [← hnew]
      exact List.mem_map_of_mem htask
    rw [hplace, Function.update_self] at hfound
    cases hfound
    cases htext
    cases hagain.symm.trans hstored
    rw [times_after hfiles (adds_id hadds)] at hfile
    exact ⟨⟨before, hbefore, hread.same hadded⟩, file, hfile, hplace, hpermitted, hplace ▸ hrolled⟩
  · rintro ⟨⟨before, hbefore, hsame⟩, file, hfile, hplace, hpermitted, hrolled⟩
    refine ⟨before, again, hbefore, ?_, hread.of_same hsame⟩
    rw [← times_after hfiles (adds_id hadds)] at hfile
    refine newestState_eq_some_iff.mpr ⟨file, hfile, load_ok_iff.mpr ⟨hpermitted, ?_⟩⟩
    refine ⟨savedFile host state tree.saves, state, ?_, rfl, hagain⟩
    rw [fileAt, hfiles, filesAfter, hplace, if_neg hrolled, htarget, Function.update_self]

end StateTree

end Vexcoder.Subtask

import Vexcoder.Subtask.AgentsConfig
import Vexcoder.Task.SavedStates

/-!
# The store of task states and the facade

The state files of all search directories, and the calls that create and change session tasks in them.
A stored file carries what `TaskState::load` and `cached_task_header` read of it; a state that is saved
is read back as it is.  The call that creates a task on demand and the one for a team count the live
tasks first, over the files that the bounded scan lists.
-/

namespace Vexcoder.Subtask

open Base Lib
open Vexcoder.Task

structure StoredFile where
  dir : String
  id : String
  modifiedMillis : ℕ
  /-- `TaskState::load` -/
  state : Option TaskState
  /-- `cached_task_header` -/
  header : Option TaskStateHeader

def StoredFile.file (stored : StoredFile) : TaskStateFile :=
  { dir := stored.dir, id := stored.id, modifiedMillis := stored.modifiedMillis }

def StoredFile.place (stored : StoredFile) : String × String := (stored.dir, stored.id)

def StoredFile.isAt (dir id : String) (stored : StoredFile) : Bool := stored.place = (dir, id)

def StoredFile.tasks (stored : StoredFile) : List SessionTask :=
  match stored.state with
  | some state => state.sessionTasks
  | none => []

def StoredFile.summaries (stored : StoredFile) : List SessionTaskSummary :=
  match stored.header with
  | some header => header.summaries
  | none => []

/-- What the system gives for the store; the order in which directories are listed is its own. -/
structure StoreHost extends TaskHost where
  modifiedMillis : ℕ → ℕ
  arrange : ℕ → List StoredFile → List StoredFile
  arrange_perm : ∀ n files, (arrange n files).Perm files
  saveError : ℕ → Option String
  releaseLease : String → Except String Unit
  /-- `StartupBudget::max_scans`; with a greater one every scan panics. -/
  maxScans : ℕ
  hasCapacity : HasCapacity maxScans := by decide

structure Store where
  files : List StoredFile
  places : (files.map StoredFile.place).Nodup
  /-- The session tasks begun so far. -/
  tick : ℕ := 0
  /-- The states saved so far. -/
  saves : ℕ := 0

namespace Store

variable (host : StoreHost)

def at_ (store : Store) (dir id : String) : Option StoredFile :=
  store.files.find? (StoredFile.isAt dir id)

/-- The session tasks of a parent whose file is in the state directory. -/
def tasksAt (store : Store) (id : String) : List SessionTask :=
  (store.at_ host.stateDir id).elim [] StoredFile.tasks

/-- `TaskState::load` from the state directory. -/
def load (store : Store) (id : String) : Except String TaskState :=
  match (store.at_ host.stateDir id).bind StoredFile.state with
  | some state => .ok state
  | none => .error ("Failed to read state file: " ++ host.stateDir ++ "/" ++ id ++ ".json")

def headerOf (state : TaskState) : TaskStateHeader :=
  { id := state.id, modifiedMillis := state.updatedAt
    sessionTasks := some (state.sessionTasks.map SessionTask.summary) }

def savedFile (state : TaskState) (saves : ℕ) : StoredFile :=
  { dir := host.stateDir, id := state.id, modifiedMillis := host.modifiedMillis saves
    state := some state, header := some (headerOf state) }

/-- The files but for the one that a save replaces. -/
def others (store : Store) (id : String) : List StoredFile :=
  store.files.filter fun stored => !stored.isAt host.stateDir id

theorem places_saved (store : Store) (state : TaskState) :
    ((host.arrange store.saves (store.others host state.id ++
      [savedFile host state store.saves])).map StoredFile.place).Nodup := by
  refine ((host.arrange_perm _ _).map _).nodup_iff.mpr ?_
  rw [List.map_append]
  refine List.nodup_append.mpr ⟨?_, List.nodup_singleton _, ?_⟩
  · exact (List.filter_sublist.map StoredFile.place).nodup store.places
  · intro place mem place' mem' same
    obtain ⟨stored, hstored, rfl⟩ := List.mem_map.mp mem
    have elsewhere := (List.mem_filter.mp hstored).2
    rw [List.mem_singleton.mp mem'] at same
    have same' : stored.place = (host.stateDir, state.id) := same
    rw [StoredFile.isAt, decide_eq_true same'] at elsewhere
    cases elsewhere

/-- `TaskState::save`, to the state directory. -/
def save (store : Store) (state : TaskState) : Store × Except String Unit :=
  match host.saveError store.saves with
  | some error => ({ store with saves := store.saves + 1 }, .error error)
  | none =>
    ({ files := host.arrange store.saves (store.others host state.id ++ [savedFile host state store.saves])
       places := places_saved host store state
       tick := store.tick
       saves := store.saves + 1 }, .ok ())

/-! ### Questions about all files -/

/-- `state_files_from_with_limit` -/
def listed (store : Store) : List TaskStateFile :=
  listedFiles host.maxScans (store.files.map StoredFile.file)

def listedSummaries (store : Store) (file : TaskStateFile) : List SessionTaskSummary :=
  match store.at_ file.dir file.id with
  | some stored => stored.summaries
  | none => []

/-- `live_session_task_counts_from` -/
def liveCounts (store : Store) : List (String × ℕ) :=
  ((store.listed host).flatMap store.listedSummaries).foldl countLive []

def liveCount (store : Store) (agentId : String) : ℕ :=
  (Assoc.find? agentId (store.liveCounts host)).getD 0

def findListed (store : Store) (sessionTaskId : String) :
    List TaskStateFile → Except String (Option (TaskState × SessionTask))
  | [] => .ok none
  | file :: rest =>
    match (store.at_ file.dir file.id).bind StoredFile.header with
    | none => findListed store sessionTaskId rest
    | some header =>
      if !isCandidate header sessionTaskId then findListed store sessionTaskId rest
      else match (store.at_ file.dir file.id).bind StoredFile.state with
        | none => .error ("Failed to read state file: " ++ file.path)
        | some state =>
          match state.sessionTask sessionTaskId with
          | some task => .ok (some (state, task))
          | none => findListed store sessionTaskId rest

/-- `find_session_task_in_saved_states` -/
def findSessionTask (store : Store) (sessionTaskId : String) :
    Except String (Option (TaskState × SessionTask)) :=
  store.findListed sessionTaskId (store.listed host)

end Store

/-! ### Creating session tasks -/

variable (host : StoreHost) (config : AgentsConfig)

def maxDelegatePromptBytes : ℕ := 65536

/-- `facade_delegate_session_task`: the ids of the parent and of the new task. -/
def facadeDelegateSessionTask (parentTaskId : Option String) (agentId prompt : String)
    (store : Store) : Store × Except String (String × String) :=
  match parentTaskId.filter fun id => !Text.isEmpty (Text.trim id) with
  | none => (store, .error "parent_task_id_required")
  | some parentTaskId =>
    if byteLen prompt.toList > maxDelegatePromptBytes then (store, .error "prompt_too_long")
    else match config.agent agentId with
      | none => (store, .error "agent_not_found")
      | some agent =>
        if agent.maxParallelTasks ≤ store.liveCount host agentId then
          (store, .error "concurrency_limit_reached")
        else
          let parentState := match store.load host parentTaskId with
            | .ok state => state
            | .error _ => newTaskState parentTaskId (host.clock store.tick)
          let begun := { store with tick := store.tick + 1 }
          match spawn host.toTaskHost parentTaskId agent.toAgentProfile agentId prompt
              parentState.sessionTasks false store.tick with
          | .error error => (begun, .error error)
          | .ok task =>
            match begun.save host (parentState.addSessionTask task (host.clock store.tick)) with
            | (store, .error error) => (store, .error error)
            | (store, .ok ()) => (store, .ok (parentTaskId, task.id))

/-- The check of `facade_schedule_team`, member by member. -/
def checkMembers (store : Store) (teamName : String) : List String → Except String Unit
  | [] => .ok ()
  | memberName :: members =>
    match config.agent memberName with
    | none => .error ("team '" ++ teamName ++ "' references unknown agent member '" ++ memberName ++ "'")
    | some agent =>
      if agent.maxParallelTasks ≤ store.liveCount host memberName then
        .error "concurrency_limit_reached"
      else checkMembers store teamName members

/-- An operation of the orchestrator on the files of one parent; what it has saved is saved. -/
def onParent {α : Type} (parentTaskId : String) (op : System → System × Except String α)
    (store : Store) : Store × Except String α :=
  let loaded := (store.load host parentTaskId).toOption
  match op { files := { state := loaded }, tick := store.tick } with
  | (s, .error error) => ({ store with tick := s.tick }, .error error)
  | (s, .ok a) =>
    let begun := { store with tick := s.tick }
    if s.files.state = loaded then (begun, .ok a)
    else match s.files.state with
      | none => (begun, .ok a)
      | some state =>
        match begun.save host state with
        | (store, .error error) => (store, .error error)
        | (store, .ok ()) => (store, .ok a)

/-- `SubtaskOrchestrator::schedule_team`: a file that is there has to be readable. -/
def scheduleTeamIn (parentTaskId : String) (team : TeamDefinition) (prompt : String)
    (store : Store) : Store × Except String TeamDecomposition :=
  if (store.at_ host.stateDir parentTaskId).any fun stored => stored.state.isNone then
    (store, .error ("Failed to read state file: " ++ host.stateDir ++ "/" ++ parentTaskId ++ ".json"))
  else onParent host parentTaskId
    (scheduleTeam host.toTaskHost parentTaskId team config.profiles prompt) store

def facadeScheduleTeam (parentTaskId teamName prompt : String) (store : Store) :
    Store × Except String TeamDecomposition :=
  if Text.isEmpty (Text.trim parentTaskId) then (store, .error "parent_task_id_required")
  else if Text.isEmpty (Text.trim prompt) then (store, .error "prompt_required")
  else if byteLen prompt.toList > maxDelegatePromptBytes then (store, .error "prompt_too_long")
  else match config.teamDefinitions.find? fun team => team.name = teamName with
    | none => (store, .error "team_not_found")
    | some team =>
      match checkMembers host config store teamName (membersToCreate team) with
      | .error error => (store, .error error)
      | .ok () => scheduleTeamIn host config parentTaskId team prompt store

/-- `SubtaskOrchestrator::advance_sequential` -/
def advanceSequentialIn (parentTaskId : String) (team : TeamDefinition) (prompt : String)
    (store : Store) : Store × Except String (Option String) :=
  onParent host parentTaskId
    (advanceSequential host.toTaskHost parentTaskId team config.profiles prompt) store

/-! ### Changing session tasks -/

/-- `TaskState::update_session_task_status` -/
def updateStatus (state : TaskState) (id : String) (status : SessionTaskStatus) (now : ℕ) :
    TaskState :=
  state.setSessionTask id (fun task => task.transitionTo status now now) now

def parseSessionTaskStatus (s : String) : Option SessionTaskStatus :=
  [("pending", SessionTaskStatus.pending), ("running", .running), ("blocked", .blocked),
    ("failed", .failed), ("cancelled", .cancelled), ("completed", .completed)].lookup s

def facadeUpdateSessionTaskStatus (sessionTaskId status : String) (store : Store) :
    Store × Except String Unit :=
  match parseSessionTaskStatus status with
  | none => (store, .error "invalid_status")
  | some status =>
    match store.findSessionTask host sessionTaskId with
    | .error error => (store, .error error)
    | .ok none => (store, .error "session_task_not_found")
    | .ok (some (parentState, existing)) =>
      if !existing.lifecycleState.isLive then (store, .error "transition_not_allowed")
      else store.save host (updateStatus parentState sessionTaskId status (host.clock store.tick))

def facadeReleaseSessionTask (sessionTaskId : String) (store : Store) : Store × Except String Bool :=
  match store.findSessionTask host sessionTaskId with
  | .error error => (store, .error error)
  | .ok none => (store, .ok false)
  | .ok (some (parentState, existing)) =>
    let released := (host.releaseLease sessionTaskId).map fun _ => true
    if !existing.lifecycleState.isLive then (store, released)
    else
      match store.save host (updateStatus parentState sessionTaskId .completed (host.clock store.tick)) with
      | (store, .error error) => (store, .error error)
      | (store, .ok ()) => (store, released)

end Vexcoder.Subtask

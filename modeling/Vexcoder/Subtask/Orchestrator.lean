import Vexcoder.Base.Text
import Vexcoder.Subtask.JoinIndex
import Vexcoder.Task.State

/-!
# The subtask orchestrator

It creates the session tasks of a team under a parent task, collects their summaries when all are done
and merges these into the join index.  `ParentFiles` are the files of one parent task, as `load` reads
them.  The ids that are drawn, the clock and the worktree leases are those of a `TaskHost`.
-/

namespace Vexcoder.Subtask

open Base
open Vexcoder.Task

inductive IsolationPolicy where
  | worktree
  | shared
  deriving DecidableEq

inductive TeamScheduler where
  | fanOutJoin
  | sequential
  deriving DecidableEq

structure AgentProfile where
  name : String
  isolation : IsolationPolicy := .worktree

structure TeamDefinition where
  name : String
  members : List String
  scheduler : TeamScheduler := .fanOutJoin

structure TeamDecomposition where
  parentTaskId : String
  sessionTaskIds : List String
  scheduler : TeamScheduler

structure JoinOutcome where
  allDone : Bool := true
  completed : ℕ := 0
  failed : ℕ := 0
  cancelled : ℕ := 0
  summaries : List JoinSummary := []

structure RecordedDecision where
  rationale : String
  sourceReference : String

/-- The part of the record that a join writes. -/
structure WorkingSetRecord where
  objective : String
  decisions : List RecordedDecision := []

/-- What the system gives: `tick` counts the session tasks that were begun. -/
structure TaskHost where
  stateDir : String
  /-- `Uuid::new_v4().as_hyphenated()` -/
  uuid : ℕ → String
  /-- `now_millis` -/
  clock : ℕ → ℕ
  /-- `WorktreeLeaseManager::lease_for_task`: the path of the lease. -/
  leaseForTask : String → Option String → Except String String

structure ParentFiles where
  state : Option TaskState := none
  joinIndex : Option JoinIndex := none
  workingSet : Option WorkingSetRecord := none

/-- The files of the parent task and the number of session tasks begun so far. -/
structure System where
  files : ParentFiles := {}
  tick : ℕ := 0

/-- `TaskState::new` -/
def newTaskState (id : String) (now : ℕ) : TaskState := { id, startedAt := some now, updatedAt := now }

def findAgent (agents : List AgentProfile) (name : String) : Except String AgentProfile :=
  match agents.find? fun agent => agent.name = name with
  | some agent => .ok agent
  | none => .error ("agent '" ++ name ++ "' not found in provided agent list")

variable (host : TaskHost) (parentTaskId : String)

/-- `TaskState::load` -/
def loadParent (files : ParentFiles) : Except String TaskState :=
  match files.state with
  | some state => .ok state
  | none =>
    .error ("Failed to read state file: " ++ host.stateDir ++ "/" ++ parentTaskId ++ ".json")

/-- A new session task of a member, leased where the agent wants a worktree. -/
def spawn (agent : AgentProfile) (memberName prompt : String) (existing : List SessionTask)
    (sequentialContinuation : Bool) (tick : ℕ) : Except String SessionTask :=
  let task := (SessionTask.new parentTaskId memberName prompt none (host.uuid tick)
    (host.clock tick)).stampJoinSupersedes existing sequentialContinuation
  if agent.isolation = .worktree then
    match host.leaseForTask task.id (some parentTaskId) with
    | .error e => .error e
    | .ok path => .ok { task with worktreePath := some path }
  else .ok task

/-- The loop of `schedule_team`. -/
def createMembers (agents : List AgentProfile) (prompt : String) (sequential : Bool) :
    List String → ℕ → TaskState → ℕ × Except String (TaskState × List String)
  | [], tick, state => (tick, .ok (state, []))
  | memberName :: members, tick, state =>
    match findAgent agents memberName with
    | .error e => (tick, .error e)
    | .ok agent =>
      match spawn host parentTaskId agent memberName prompt state.sessionTasks sequential tick with
      | .error e => (tick + 1, .error e)
      | .ok task =>
        match createMembers agents prompt sequential members (tick + 1)
            (state.addSessionTask task (host.clock tick)) with
        | (tick, .error e) => (tick, .error e)
        | (tick, .ok (state, ids)) => (tick, .ok (state, task.id :: ids))

def membersToCreate (team : TeamDefinition) : List String :=
  match team.scheduler with
  | .fanOutJoin => team.members
  | .sequential => team.members.take 1

def scheduleTeam (team : TeamDefinition) (agents : List AgentProfile) (prompt : String)
    (s : System) : System × Except String TeamDecomposition :=
  if team.members.isEmpty then (s, .error ("team '" ++ team.name ++ "' has no members"))
  else
    let parentState := s.files.state.getD (newTaskState parentTaskId (host.clock s.tick))
    match createMembers host parentTaskId agents prompt (team.scheduler = .sequential)
        (membersToCreate team) s.tick parentState with
    | (tick, .error e) => ({ s with tick }, .error e)
    | (tick, .ok (parentState, sessionTaskIds)) =>
      ({ files := { s.files with state := some parentState }, tick },
        .ok { parentTaskId, sessionTaskIds, scheduler := team.scheduler })

/-- The member that `advance_sequential` finds to come next: the first one without a task, if no
member before it is still at work. -/
def nextMember (sessionTasks : List SessionTask) : List String → Option String
  | [] => none
  | memberName :: members =>
    match sessionTasks.find? fun task => task.agentId = memberName with
    | none => some memberName
    | some task => if task.lifecycleState.isLive then none else nextMember sessionTasks members

def advanceSequential (team : TeamDefinition) (agents : List AgentProfile) (prompt : String)
    (s : System) : System × Except String (Option String) :=
  match loadParent host parentTaskId s.files with
  | .error e => (s, .error e)
  | .ok parentState =>
    match nextMember parentState.sessionTasks team.members with
    | none => (s, .ok none)
    | some memberName =>
      match findAgent agents memberName with
      | .error e => (s, .error e)
      | .ok agent =>
        match spawn host parentTaskId agent memberName prompt parentState.sessionTasks true s.tick with
        | .error e => ({ s with tick := s.tick + 1 }, .error e)
        | .ok task =>
          let parentState := parentState.addSessionTask task (host.clock s.tick)
          ({ files := { s.files with state := some parentState }, tick := s.tick + 1 }, .ok (some task.id))

def isTeamScheduleExhausted (team : TeamDefinition) (s : System) : Except String Bool :=
  match loadParent host parentTaskId s.files with
  | .error e => .error e
  | .ok state =>
    .ok (team.members.all fun memberName =>
      state.sessionTasks.any fun task =>
        task.agentId = memberName && !task.lifecycleState.isLive)

/-! ### Session tasks change -/

/-- `facade_update_session_task_status`: only a live task changes. -/
def updateSessionTaskStatus (id : String) (status : SessionTaskStatus) (s : System) : System :=
  match s.files.state with
  | none => s
  | some state =>
    match state.sessionTask id with
    | none => s
    | some task =>
      if task.lifecycleState.isLive then
        let now := host.clock s.tick
        { s with files := { s.files with
          state := some (state.setSessionTask id (fun task => task.transitionTo status now now) now) } }
      else s

/-- `SessionTask::set_handoff_summary` of a task that is then saved. -/
def setHandoffSummary (id summary : String) (s : System) : System :=
  match s.files.state with
  | none => s
  | some state =>
    let now := host.clock s.tick
    { s with files := { s.files with
      state := some (state.setSessionTask id
        (fun task => { task with handoffSummary := some summary, updatedAt := now }) now) } }

/-! ### Joining -/

/-- One round of the loop of `production_supersedes`. -/
def supersedePrior (task : SessionTask) (ids : List String) (prior : SessionTask) : List String :=
  if prior.lifecycleState ≠ .completed then ids
  else if prior.handoffSummary.isNone then ids
  else if prior.agentId = task.agentId ∧ prior.id ∉ ids then ids ++ [prior.id]
  else ids

/-- The ids that a task was given at its creation, and the completed ones of its agent before it. -/
def productionSupersedes (task : SessionTask) (all : List SessionTask) : List String :=
  match all.findIdx? fun candidate => candidate.id = task.id with
  | none => task.supersedes
  | some index => (all.take index).foldl (supersedePrior task) task.supersedes

def joinSummary (all : List SessionTask) (task : SessionTask) (summary : String) : JoinSummary :=
  { messageId := task.id, agentId := task.agentId, summary
    supersedes := productionSupersedes task all }

/-- The loop of `poll_fan_out_join`, which ends at the first task that is still live. -/
def collectTasks (all : List SessionTask) : List SessionTask → JoinOutcome → Option JoinOutcome
  | [], outcome => some outcome
  | task :: tasks, outcome =>
    match task.lifecycleState with
    | .completed =>
      let summaries := task.handoffSummary.toList.map (joinSummary all task)
      collectTasks all tasks
        { outcome with
          completed := outcome.completed + 1
          summaries := outcome.summaries ++ summaries }
    | .failed => collectTasks all tasks { outcome with failed := outcome.failed + 1 }
    | .cancelled => collectTasks all tasks { outcome with cancelled := outcome.cancelled + 1 }
    | .pending | .running | .blocked => none

def pollFanOutJoin (s : System) : Except String (Option JoinOutcome) :=
  match loadParent host parentTaskId s.files with
  | .error e => .error e
  | .ok state =>
    if state.sessionTasks.isEmpty then .ok none
    else .ok (collectTasks state.sessionTasks state.sessionTasks {})

def formatLiveHandoff (entries : List LiveJoinEntry) : String :=
  Text.join "\n" (entries.map fun entry =>
    if Text.isEmpty entry.agentId then entry.body
    else "[" ++ entry.agentId ++ "]: " ++ entry.body)

def recordJoinEvidence (record : Option WorkingSetRecord) (entries : List LiveJoinEntry) :
    WorkingSetRecord :=
  entries.foldl
    (fun record entry =>
      if Text.isEmpty (Text.trim entry.id) then record
      else if record.decisions.any fun decision => decision.sourceReference = entry.id then record
      else
        { record with
          decisions := record.decisions ++ [{ rationale := entry.body, sourceReference := entry.id }] })
    (record.getD { objective := "" })

def applyJoinOutcome (outcome : JoinOutcome) (s : System) : System × Except String (List LiveJoinEntry) :=
  if outcome.summaries.isEmpty then (s, .ok [])
  else
    let merge := (s.files.joinIndex.getD {}).postAll outcome.summaries
    let live := merge.liveEntries
    match loadParent host parentTaskId s.files with
    | .error e => ({ s with files := { s.files with joinIndex := some merge } }, .error e)
    | .ok state =>
      let state := { state with
        handoffSummary := some (formatLiveHandoff live)
        updatedAt := host.clock s.tick }
      ({ s with files :=
          { state := some state
            joinIndex := some merge
            workingSet := some (recordJoinEvidence s.files.workingSet live) } },
        .ok live)

/-! ### Session tasks -/

def System.tasks (s : System) : List SessionTask :=
  match s.files.state with
  | some state => state.sessionTasks
  | none => []

def System.ids (s : System) : List String := s.tasks.map SessionTask.id

variable {host parentTaskId} {tick : ℕ}

theorem spawn_spec {agent : AgentProfile} {memberName prompt : String}
    {existing : List SessionTask} {sequential : Bool} {task : SessionTask}
    (h : spawn host parentTaskId agent memberName prompt existing sequential tick = .ok task) :
    task.id = parentTaskId ++ "-" ++ memberName ++ "-" ++ host.uuid tick ∧
      task.agentId = memberName ∧ task.lifecycleState = .pending ∧
      task.supersedes ⊆ existing.map SessionTask.id := by
  have hsubset : ((SessionTask.new parentTaskId memberName prompt none (host.uuid tick)
      (host.clock tick)).stampJoinSupersedes existing sequential).supersedes ⊆
        existing.map SessionTask.id := by
    intro id hid
    rw [SessionTask.stampJoinSupersedes] at hid
    split at hid
    · exact hid
    · exact List.map_subset _ (List.filter_subset_self _) hid
  rw [spawn] at h
  split at h
  · split at h
    · cases h
    · cases h
      exact ⟨rfl, rfl, rfl, hsubset⟩
  · cases h
    exact ⟨rfl, rfl, rfl, hsubset⟩

/-! ### A team of two -/

def sampleUuid (i : ℕ) : String :=
  String.ofList ("00000000-0000-4000-8000-00000000000".toList ++ [Char.ofNat ('0'.toNat + i)])

def sampleHost : TaskHost where
  stateDir := "state"
  uuid := sampleUuid
  clock i := i
  leaseForTask id _ := .ok id

def sampleTeam : TeamDefinition := { name := "pair", members := ["a", "b"], scheduler := .sequential }

def sampleAgents : List AgentProfile := [{ name := "a", isolation := .shared }, { name := "b" }]

def sampleId (agentId : String) (i : ℕ) : String := "p" ++ "-" ++ agentId ++ "-" ++ sampleUuid i

end Vexcoder.Subtask

import Vexcoder.Task.SessionTask

/-!
# The state of a task on disk

`TaskState` is what the file of a task holds: of each pulse it keeps the evidence, not the entries.
-/

namespace Vexcoder.Task

open Vexcoder.Runtime

structure ToolInvocationSummary where
  stepId : ℕ := 0
  name : String
  outcome : String
  deriving DecidableEq

structure TurnEvidenceState where
  input : String
  response : String
  changedFiles : List String := []
  commandHistory : List CommandEvidence := []
  toolInvocations : List ToolInvocationSummary := []
  tokens : PulseTokens := {}
  deriving DecidableEq

structure ConversationCheckpoint where
  messageCount : ℕ := 0
  summary : String := ""
  deriving DecidableEq

structure InterruptedCommand where
  program : String
  interruptedAt : String
  deriving DecidableEq

structure SessionNote where
  content : String
  createdAtTurn : ℕ
  deriving DecidableEq

structure ContextCompactionRecord where
  turnIndex : ℕ
  messagesBefore : ℕ
  messagesAfter : ℕ
  summary : String
  deriving DecidableEq

structure CacheUsageStats where
  totalCacheCreationTokens : ℕ := 0
  totalCacheReadTokens : ℕ := 0
  deriving DecidableEq

structure TaskState where
  id : String
  status : TaskStatus := .ready
  parentTaskId : Option String := none
  agentId : Option String := none
  worktreePath : Option String := none
  startedAt : Option ℕ := none
  updatedAt : ℕ := 0
  lastHeartbeat : Option ℕ := none
  handoffSummary : Option String := none
  activeGrants : List (Capability × ApprovalScope) := []
  changedFiles : List String := []
  commandHistory : List CommandEvidence := []
  conversationSnapshot : ConversationCheckpoint := {}
  interruptedSessions : List InterruptedCommand := []
  branchName : Option String := none
  instructionsPath : Option String := none
  pulses : List TurnEvidenceState := []
  plan : Option String := none
  sessionNotes : List SessionNote := []
  contextCompaction : List ContextCompactionRecord := []
  cacheUsage : CacheUsageStats := {}
  sessionTasks : List SessionTask := []
  deriving DecidableEq

namespace TaskState

/-- `TaskState::session_task` -/
def sessionTask (state : TaskState) (id : String) : Option SessionTask :=
  state.sessionTasks.find? fun task => task.id = id

def addSessionTask (state : TaskState) (task : SessionTask) (now : ℕ) : TaskState :=
  { state with sessionTasks := state.sessionTasks ++ [task], updatedAt := now }

/-- A change of the first task with an id, by way of `session_task_mut`. -/
def setSessionTask (state : TaskState) (id : String) (change : SessionTask → SessionTask)
    (now : ℕ) : TaskState :=
  { state with
    sessionTasks := state.sessionTasks.modify (state.sessionTasks.findIdx fun task => task.id = id)
      change
    updatedAt := now }

end TaskState

/-! ### Loading -/

/-- The ids that `normalize_tool_invocation_step_ids` has seen, and the next one it gives. -/
structure StepIds where
  seen : List ℕ := []
  next : ℕ := 1

/-- `while !seen.insert(next_step_id)`: one more round than there are ids seen is enough, and when
the rounds run out the loop turns at the largest number for ever. -/
def StepIds.insertNext (ids : StepIds) : ℕ → Option StepIds
  | 0 => none
  | rounds + 1 =>
    if ids.next ∈ ids.seen then ({ ids with next := saturatingSucc ids.next }).insertNext rounds
    else some { ids with seen := ids.next :: ids.seen }

def normalizeInvocation (ids : StepIds) (invocation : ToolInvocationSummary) :
    Option (StepIds × ToolInvocationSummary) := do
  let (ids, invocation) ←
    if invocation.stepId = 0 ∨ invocation.stepId ∈ ids.seen then
      (ids.insertNext (ids.seen.length + 1)).map fun ids =>
        (ids, { invocation with stepId := ids.next })
    else some ({ ids with seen := invocation.stepId :: ids.seen }, invocation)
  some ({ ids with next := max ids.next (saturatingSucc invocation.stepId) }, invocation)

def normalizeInvocations (ids : StepIds) :
    List ToolInvocationSummary → Option (StepIds × List ToolInvocationSummary)
  | [] => some (ids, [])
  | invocation :: rest => do
    let (ids, invocation) ← normalizeInvocation ids invocation
    let (ids, rest) ← normalizeInvocations ids rest
    some (ids, invocation :: rest)

def normalizePulses (ids : StepIds) : List TurnEvidenceState → Option (List TurnEvidenceState)
  | [] => some []
  | pulse :: rest => do
    let (ids, toolInvocations) ← normalizeInvocations ids pulse.toolInvocations
    let rest ← normalizePulses ids rest
    some ({ pulse with toolInvocations } :: rest)

/-- `none` when the loop that looks for an unused id does not end. -/
def normalizeToolInvocationStepIds (pulses : List TurnEvidenceState) : Option (List TurnEvidenceState) :=
  normalizePulses {} pulses

example :
    normalizeToolInvocationStepIds
        [{ input := "one", response := "", toolInvocations := [⟨0, "a", "ok"⟩, ⟨2, "b", "ok"⟩] },
          { input := "two", response := "", toolInvocations := [⟨2, "c", "ok"⟩] }] =
      some
        [{ input := "one", response := "", toolInvocations := [⟨1, "a", "ok"⟩, ⟨2, "b", "ok"⟩] },
          { input := "two", response := "", toolInvocations := [⟨3, "c", "ok"⟩] }] := by
  decide +kernel

/-- What `TaskState::load` does with the state it has read; `now` is the clock. -/
def TaskState.normalize (state : TaskState) (now : ℕ) : Option TaskState := do
  let commandHistory := state.commandHistory.map fun evidence =>
    if evidence.exitCode.isNone then { evidence with interrupted := true } else evidence
  let updatedAt := if state.updatedAt = 0 then now else state.updatedAt
  let pulses ← normalizeToolInvocationStepIds state.pulses
  some { state with commandHistory, updatedAt, pulses }

end Vexcoder.Task

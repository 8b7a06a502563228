import Vexcoder.Base.Text
import Vexcoder.Lib.SortByKey
import Vexcoder.Task.State

/-!
# Snapshots of a task document

`persistableSnapshot` reduces a document to the state that is saved, and `restoreFromSnapshot` makes a
document of a saved state.  A restored turn has an entry for the input, one for the response and one
for each invocation, under step ids of its own.
-/

namespace Vexcoder.Task

open Base Lib.Assoc Lib.SortByKey Vexcoder.Runtime

inductive ModelBackendKind where
  | localRuntime
  | apiServer

/-- A task document with what no turn and no signal reads: the rest of `TaskInfo`, the notes, the
compactions and the session tasks. -/
structure TaskRecord where
  id : String
  parentTaskId : Option String := none
  agentId : Option String := none
  worktreePath : Option String := none
  branchName : Option String := none
  instructionsPath : Option String := none
  modelName : String := ""
  modelBackend : ModelBackendKind := .localRuntime
  modelUrl : String := ""
  startedAtMs : Option ℕ := none
  lastHeartbeatMs : Option ℕ := none
  sessionNotes : List SessionNote := []
  contextCompaction : List ContextCompactionRecord := []
  sessionTasks : List SessionTask := []
  doc : TaskDocument

/-! ### From the document to the state -/

def extractFinalText (entries : List PulseEntry) : String :=
  String.join (entries.filterMap fun entry =>
    match entry with
    | .assistantBlock _ block => if block.phase = .final then some block.content else none
    | _ => none)

def summarizeToolOutcome (output : String) (isError : Bool) : String :=
  if !isError then "ok"
  else if Text.contains (Text.toAsciiLowercase output) "denied" then "denied"
  else if Text.contains (Text.toAsciiLowercase output) "cancel" then "cancelled"
  else "error"

def outcomeFromStatus : ToolStatus → String
  | .complete => "ok"
  | .cancelled => "cancelled"
  | .error => "error"
  | .pending | .waitingApproval | .executing => "pending"

structure OpenCall where
  stepId : ℕ
  name : String
  status : ToolStatus
  deriving DecidableEq

/-- The order in which a hash map hands out its entries, of which nothing is known. -/
structure IterationOrder (α : Type) where
  list : List α → List α
  perm : ∀ l, (list l).Perm l

def IterationOrder.given (α : Type) : IterationOrder α := ⟨id, fun _ => .rfl⟩

/-- The open calls by id, and the invocations that have a result. -/
abbrev Extraction := List (String × OpenCall) × List ToolInvocationSummary

/-- One entry of `extract_tool_invocations`. -/
def extractEntry (extraction : Extraction) : PulseEntry → Extraction
  | .toolCall stepId id name _ status =>
    (insertLast id { stepId, name, status } extraction.1, extraction.2)
  | .toolResult _ toolCallId _ output isError =>
    match find? toolCallId extraction.1 with
    | some call =>
      (erase toolCallId extraction.1,
        extraction.2 ++ [⟨call.stepId, call.name, summarizeToolOutcome output isError⟩])
    | none => extraction
  | _ => extraction

def openInvocation (call : OpenCall) : ToolInvocationSummary :=
  ⟨call.stepId, call.name, outcomeFromStatus call.status⟩

def extractToolInvocations (order : IterationOrder OpenCall) (entries : List PulseEntry) :
    List ToolInvocationSummary :=
  let (toolCalls, invocations) := entries.foldl extractEntry ([], [])
  sortByKey ToolInvocationSummary.stepId
    (invocations ++ (order.list (toolCalls.map Prod.snd)).map openInvocation)

def evidenceOfTurn (order : IterationOrder OpenCall) (turn : TurnDocument) : TurnEvidenceState :=
  { input := turn.input
    response := extractFinalText turn.entries
    changedFiles := turn.changedFiles
    commandHistory := turn.commandHistory
    toolInvocations := extractToolInvocations order turn.entries
    tokens := turn.tokens }

/-- `persistable_snapshot`; each turn has a hash map of its own. -/
def persistableSnapshot (order : ℕ → IterationOrder OpenCall) (record : TaskRecord) : TaskState :=
  let turns := record.doc.completedTurns
  { id := record.id
    status := record.doc.info.status
    parentTaskId := record.parentTaskId
    agentId := record.agentId
    worktreePath := record.worktreePath
    startedAt := record.startedAtMs
    updatedAt := record.doc.info.updatedAtMs
    lastHeartbeat := record.lastHeartbeatMs
    handoffSummary := none
    activeGrants := record.doc.info.activeGrants
    changedFiles := turns.flatMap TurnDocument.changedFiles
    commandHistory := turns.flatMap TurnDocument.commandHistory
    conversationSnapshot := { messageCount := turns.length, summary := "" }
    interruptedSessions := []
    branchName := record.branchName
    instructionsPath := record.instructionsPath
    pulses := turns.mapIdx fun i turn => evidenceOfTurn (order i) turn
    plan := none
    sessionNotes := record.sessionNotes
    contextCompaction := record.contextCompaction
    cacheUsage := {}
    sessionTasks := record.sessionTasks }

/-! ### From the state to the document -/

def toolStatusFromOutcome (outcome : String) : ToolStatus :=
  let lowered := Text.toAsciiLowercase outcome
  if Text.contains lowered "cancel" then .cancelled
  else if Text.contains lowered "denied" || Text.contains lowered "error"
      || Text.contains lowered "fail" then .error
  else if lowered = "ok" then .complete
  else .pending

def restoredId (invocation : ToolInvocationSummary) : String :=
  "restored-" ++ toString invocation.stepId

/-- The entries of the invocations behind the step id `step`. -/
def invocationEntries (step : ℕ) : List ToolInvocationSummary → List PulseEntry
  | [] => []
  | invocation :: rest =>
    let stepId := max invocation.stepId (saturatingSucc step)
    .toolCall stepId (restoredId invocation) invocation.name (.object [])
        (toolStatusFromOutcome invocation.outcome)
      :: invocationEntries stepId rest

/-- `saturating_mul(1000)` -/
def baseStep (turnIndex : ℕ) : ℕ := min (turnIndex * 1000) u64Max

def entriesFromEvidence (turnIndex : ℕ) (evidence : TurnEvidenceState) : List PulseEntry :=
  let step := saturatingSucc (baseStep turnIndex)
  .userInput (baseStep turnIndex) evidence.input
    :: (if Text.isEmpty evidence.response then []
        else [.assistantBlock step {
          blockIndex := 0, phase := .final, content := evidence.response, collapsed := false
          streaming := false }])
    ++ invocationEntries step evidence.toolInvocations

def turnFromEvidence (turnIndex : ℕ) (evidence : TurnEvidenceState) : TurnDocument :=
  { turnIndex, input := evidence.input, entries := entriesFromEvidence turnIndex evidence
    outcome := .completed, changedFiles := evidence.changedFiles
    commandHistory := evidence.commandHistory, tokens := evidence.tokens
    startedAtMs := 0, completedAtMs := 0, ttftMs := none, timings := none }

def nextStepId (turns : List TurnDocument) : ℕ :=
  saturatingSucc (((turns.flatMap TurnDocument.entries).map PulseEntry.stepId).max?.getD 0)

def restoreFromSnapshot (snapshot : TaskState) : TaskRecord :=
  let completedTurns := snapshot.pulses.mapIdx turnFromEvidence
  { id := snapshot.id
    parentTaskId := snapshot.parentTaskId
    agentId := snapshot.agentId
    worktreePath := snapshot.worktreePath
    branchName := snapshot.branchName
    instructionsPath := snapshot.instructionsPath
    modelName := ""
    modelBackend := .localRuntime
    modelUrl := ""
    startedAtMs := snapshot.startedAt
    lastHeartbeatMs := snapshot.lastHeartbeat
    sessionNotes := snapshot.sessionNotes
    contextCompaction := snapshot.contextCompaction
    sessionTasks := snapshot.sessionTasks
    doc := {
      info := {
        status := snapshot.status, updatedAtMs := snapshot.updatedAt
        activeGrants := snapshot.activeGrants, nextStepId := nextStepId completedTurns }
      completedTurns, activePulse := none, lastError := none } }

end Vexcoder.Task

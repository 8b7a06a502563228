import Vexcoder.Lib.Assoc
import Vexcoder.Runtime.Signals

/-!
# Task documents

The record of a task: its completed turns, the turn that is running, and the entries of each.
-/

namespace Vexcoder.Task

open Base Vexcoder.Runtime

inductive TaskStatus where
  | ready
  | running
  | awaitingApproval
  | cancelling
  | completed
  | failed
  | cancelled
  | maxTurnsReached
  deriving DecidableEq

inductive Capability where
  | readFile
  | writeFile
  | applyPatch
  | runCommand
  | mcpTool
  | network
  | browser
  deriving DecidableEq

inductive ApprovalScope where
  | once
  | task
  | session
  deriving DecidableEq

/-- `str::parse::<Capability>` -/
def Capability.fromStr (s : String) : Except String Capability :=
  let name := String.ofList (trim s.toList)
  if name = "read_file" ∨ name = "read-file" then .ok .readFile
  else if name = "write_file" ∨ name = "write-file" then .ok .writeFile
  else if name = "apply_patch" ∨ name = "apply-patch" then .ok .applyPatch
  else if name = "run_command" ∨ name = "run-command" then .ok .runCommand
  else if name = "mcp_tool" ∨ name = "mcp-tool" then .ok .mcpTool
  else if name = "network" then .ok .network
  else if name = "browser" then .ok .browser
  else .error ("unknown capability: " ++ name)

/-- `str::parse::<ApprovalScope>` -/
def ApprovalScope.fromStr (s : String) : Except String ApprovalScope :=
  let name := String.ofList (trim s.toList)
  if name = "once" then .ok .once
  else if name = "task" then .ok .task
  else if name = "session" then .ok .session
  else .error ("unknown scope: " ++ name)

inductive PulseToolPolicy where
  | default
  | testsOnlyMutations
  deriving DecidableEq

inductive PulseOutcome where
  | completed
  | failed (message : String)
  | cancelled
  | maxTurnsReached

inductive NoticeSeverity where
  | info
  | warning
  | error
  deriving DecidableEq

structure TaskErrorState where
  message : String
  recoverable : Bool

structure CommandEvidence where
  program : String
  exitCode : Option ℤ
  interrupted : Bool
  deriving DecidableEq

structure CommandSessionDocument where
  sessionId : ℕ
  command : String
  pid : Option ℕ
  status : String
  outputTail : List String

structure ApprovalDocument where
  stepId : ℕ
  capability : Capability
  scope : ApprovalScope
  toolName : Option String
  inputPreview : String

structure AssistantBlockEntry where
  blockIndex : ℕ
  phase : AssistantPhase
  content : String
  collapsed : Bool
  streaming : Bool

inductive PulseEntry where
  | userInput (stepId : ℕ) (text : String)
  | assistantBlock (stepId : ℕ) (block : AssistantBlockEntry)
  | toolCall (stepId : ℕ) (id name : String) (input : Value) (status : ToolStatus)
  | toolResult (stepId : ℕ) (toolCallId : String) (toolName : Option String) (output : String)
      (isError : Bool)
  | approvalRequest (stepId : ℕ) (approval : ApprovalDocument)
  | approvalResolved (stepId : ℕ) (capability : Capability) (scope : ApprovalScope) (approved : Bool)
  | commandSession (stepId : ℕ) (session : CommandSessionDocument)
  | systemNotice (stepId : ℕ) (message : String) (severity : NoticeSeverity)

def PulseEntry.stepId : PulseEntry → ℕ
  | .userInput stepId _ | .assistantBlock stepId _ | .toolCall stepId .. | .toolResult stepId ..
  | .approvalRequest stepId _ | .approvalResolved stepId .. | .commandSession stepId _
  | .systemNotice stepId .. => stepId

/-- The part of `TaskInfo` that turns and signals work on. -/
structure TaskInfo where
  status : TaskStatus := .ready
  updatedAtMs : ℕ := 0
  activeGrants : List (Capability × ApprovalScope) := []
  nextStepId : ℕ := 0

structure ActiveTurnDocument where
  turnIndex : ℕ
  input : String
  entries : List PulseEntry
  startedAtMs : ℕ
  ttftMs : Option ℕ := none
  promptProgress : Option StreamPromptProgress := none
  timings : Option StreamTimings := none
  pendingApproval : Option ApprovalDocument := none
  commandSessions : List (ℕ × CommandSessionDocument) := []
  changedFiles : List String := []
  commandHistory : List CommandEvidence := []
  toolPolicy : PulseToolPolicy
  cancelPending : Bool := false

structure TurnDocument where
  turnIndex : ℕ
  input : String
  entries : List PulseEntry
  outcome : PulseOutcome
  changedFiles : List String
  commandHistory : List CommandEvidence
  tokens : PulseTokens
  startedAtMs : ℕ
  completedAtMs : ℕ
  ttftMs : Option ℕ
  timings : Option StreamTimings

structure TaskDocument where
  info : TaskInfo
  completedTurns : List TurnDocument := []
  activePulse : Option ActiveTurnDocument := none
  lastError : Option TaskErrorState := none

structure TaskMutationSummary where
  taskStatusChanged : Bool := false
  activeTurnChanged : Bool := false
  appendedRows : ℕ := 0
  selectedStepId : Option ℕ := none
  approvalChanged : Bool := false

end Vexcoder.Task

import Vexcoder.Base.Json

/-!
# Runtime signals and envelopes

The vocabulary of the runtime: the blocks of a transcript, the signals that describe a pulse, the
envelopes that carry them, and the updates the user interface receives.  A float is given by the
bits of the `f64`.
-/

namespace Vexcoder.Runtime

open Base

inductive ToolStatus where
  | pending
  | waitingApproval
  | executing
  | complete
  | error
  | cancelled
  deriving DecidableEq

inductive StreamBlock where
  | thinking (content : String) (collapsed : Bool)
  | toolCall (id name : String) (input : Value) (status : ToolStatus)
  | toolResult (toolCallId output : String) (isError : Bool)
  | finalText (content : String)
  deriving DecidableEq

inductive AssistantPhase where
  | thinking
  | final
  deriving DecidableEq

structure StreamPromptProgress where
  total : Option ℕ := none
  cache : Option ℕ := none
  processed : Option ℕ := none
  timeMs : Option ℕ := none
  deriving DecidableEq

structure StreamTimings where
  cacheN : Option ℕ := none
  promptN : Option ℕ := none
  promptMs : Option ℕ := none
  promptPerTokenMs : Option ℕ := none
  promptPerSecond : Option ℕ := none
  predictedN : Option ℕ := none
  predictedMs : Option ℕ := none
  predictedPerTokenMs : Option ℕ := none
  predictedPerSecond : Option ℕ := none
  deriving DecidableEq

structure StreamChunkMetadata where
  object : Option String := none
  created : Option ℕ := none
  systemFingerprint : Option String := none
  serviceTier : Option String := none
  choiceIndex : Option ℕ := none
  logprobs : Option Value := none
  promptProgress : Option StreamPromptProgress := none
  timings : Option StreamTimings := none
  deriving DecidableEq

/-- The token counts of `ApiUsage`, which are all the program reads of it here. -/
structure ApiUsage where
  inputTokens : Option ℕ := none
  outputTokens : Option ℕ := none
  cacheCreationInputTokens : Option ℕ := none
  cacheReadInputTokens : Option ℕ := none
  serviceTier : Option String := none

structure PulseTokens where
  input : ℕ := 0
  output : ℕ := 0
  estimated : Bool := false
  cacheCreationInputTokens : ℕ := 0
  cacheReadInputTokens : ℕ := 0
  deriving DecidableEq

def PulseTokens.isZero (t : PulseTokens) : Bool :=
  t.input == 0 && t.output == 0 && t.cacheCreationInputTokens == 0 && t.cacheReadInputTokens == 0

structure TokenUsageEnvelope where
  input : ℕ
  output : ℕ
  estimated : Bool := false
  cacheCreationInput : ℕ := 0
  cacheReadInput : ℕ := 0
  deriving DecidableEq

structure ValidationOutputEnvelope where
  label : String
  exitCode : Int
  stdoutTail : String
  stderrTail : String
  deriving DecidableEq

inductive RuntimeSignal where
  | pulseStart (input : Option String)
  | transcriptLine (line : String)
  | transcriptBlockStart (index : ℕ) (block : StreamBlock)
  | transcriptBlockDelta (index : ℕ) (delta : String)
  | transcriptBlockComplete (index : ℕ)
  | toolCallStatusUpdated (toolCallId : String) (status : ToolStatus)
  | transcriptBlockPhaseUpdated (index : ℕ) (phase : AssistantPhase) (streaming : Bool)
  | toolCallStarted (toolCallId toolName : String) (arguments : Value) (status : ToolStatus)
      (startedAt : String)
  | toolCallArgumentsDelta (toolCallId : String) (toolName : Option String) (delta : String)
      (status : ToolStatus) (arguments : Option Value) (invalidJson : Bool)
  | toolCallCompleted (toolCallId : String) (toolName : Option String) (status : ToolStatus)
      (startedAt : Option String) (completedAt : String) (durationMs : Option ℕ) (output : String)
  | toolCallFailed (toolCallId : String) (toolName : Option String) (status : ToolStatus)
      (startedAt : Option String) (completedAt : String) (durationMs : Option ℕ) (output : String)
  | approvalRequest (capability scope : String) (toolName : Option String)
  | approvalResolved (capability scope : String) (approved : Bool)
  | validationResult (passed : Bool) (outputs : List ValidationOutputEnvelope)
  | serverMetadata (metadata : StreamChunkMetadata)
  | usageUpdated (usage : TokenUsageEnvelope)
  | pulseEnd (status : String) (usage : Option TokenUsageEnvelope) (changedFiles : List String)
  | error (code message : String) (recoverable : Bool)
  | maxTurnsReached (maxTurns : ℕ)
  deriving DecidableEq

inductive RuntimeEnvelopeSource where
  | model
  | runtime
  | userRequest
  | system
  deriving DecidableEq

structure RuntimeEnvelope where
  version : ℕ
  taskId : String
  pulse : ℕ
  seq : ℕ
  frameId : String
  emittedAt : String
  source : RuntimeEnvelopeSource
  requestId : Option String
  parentFrameId : Option String
  signal : RuntimeSignal
  deriving DecidableEq

/-- The part of a `ToolApprovalRequest` that is not its answer channel. -/
structure ToolApprovalRequest where
  toolName : String
  inputPreview : String
  deriving DecidableEq

/-- `UiUpdate`; `unreported` stands for the updates that no envelope reports. -/
inductive UiUpdate where
  | transcriptLine (line : String)
  | streamDelta (text : String)
  | streamBlockStart (index : ℕ) (block : StreamBlock)
  | streamBlockDelta (index : ℕ) (delta : String)
  | streamBlockComplete (index : ℕ)
  | toolApprovalRequest (request : ToolApprovalRequest)
  | serverMetadata (metadata : StreamChunkMetadata)
  | pulseComplete
  | error (message : String)
  | unreported

structure PulseEndContext where
  usage : Option TokenUsageEnvelope := none
  changedFiles : List String := []

def u64Max : ℕ := 2 ^ 64 - 1

/-- `saturating_add(1)` at `u64` and `usize`. -/
def saturatingSucc (n : ℕ) : ℕ := min (n + 1) u64Max

theorem saturatingSucc_le (n : ℕ) : saturatingSucc n ≤ u64Max := Nat.min_le_right _ _

theorem min_saturatingSucc_add (n i : ℕ) : min (saturatingSucc n + i) u64Max = min (n + (i + 1)) u64Max := by
  simp only [saturatingSucc]
  omega

def saturatingAdd (m n : ℕ) : ℕ := min (m + n) u64Max

end Vexcoder.Runtime

import Vexcoder.Lib.Assoc
import Vexcoder.Lib.Emitter
import Vexcoder.Runtime.Signals
import Vexcoder.Stream.TextNormaliser

/-!
# The envelope normaliser

`RuntimeEnvelopeNormalizer` numbers the signals of a pulse and puts them in envelopes.  A function of
the source that returns a vector of envelopes emits them here; one that returns a single envelope
returns it, and the caller emits it, or drops it.

The clock and the nanoseconds that go into a tool call id are read from a `Host`, reading by reading.
The delta accumulator is the absent one of `RuntimeEnvelopeNormalizer::new`.
-/

namespace Vexcoder.Handoff

open Base Lib Lib.Assoc Lib.Emitter Vexcoder.Runtime
open Vexcoder.Stream

/-- What the program reads from the machine it runs on: the milliseconds and the nanoseconds of the
`n`-th reading of the clock, and the functions of the JSON library. -/
structure Host where
  now : ℕ → ℤ
  nanosecond : ℕ → ℕ
  timestampString : ℤ → String
  codec : JsonCodec

/-! ### State -/

inductive ToolCallLifecycle where
  | discovered
  | opened
  | closed
  deriving DecidableEq

structure PendingChatCompatToolState where
  id : String := ""
  name : String := ""
  pendingArguments : List Char := []
  materializedArguments : Option Value := none
  lifecycle : ToolCallLifecycle := .discovered

def taggedToolBlockStartIndex : ℕ := 1

structure ProtocolIngressState where
  turnStarted : Bool := false
  openBlocks : List ℕ := []
  turnTokens : PulseTokens := {}
  chatCompatMessageStarted : Bool := false
  taggedTextNormalisers : List (ℕ × StreamTextNormaliser) := []
  nextTaggedToolBlockIndex : ℕ := taggedToolBlockStartIndex
  chatCompatToolLifecycles : List (ℕ × PendingChatCompatToolState) := []
  hasNativeToolCalls : Bool := false
  chatCompatStreamTerminated : Bool := false

structure PendingToolCall where
  runtimeId : String
  name : String
  arguments : Value
  rawArguments : List Char
  startFrameId : String
  startedAt : ℤ

structure PendingToolCallContext where
  name : String
  startFrameId : String

def syntheticFinalTextBlockStart : ℕ := 1000000

structure RuntimeEnvelopeNormalizer where
  taskId : String
  pulse : ℕ := 0
  nextSeq : ℕ := 1
  pendingToolCalls : List (String × PendingToolCall) := []
  pendingToolCallContexts : List (String × PendingToolCallContext) := []
  streamingToolCallBlocks : List (ℕ × String) := []
  blockSources : List (ℕ × RuntimeEnvelopeSource) := []
  turnChangedFiles : List String := []
  toolIdCounter : ℕ := 0
  openFinalTextBlock : Option ℕ := none
  nextSyntheticBlockIndex : ℕ := syntheticFinalTextBlockStart
  protocolIngress : ProtocolIngressState := {}
  /-- How often the clock has been read. -/
  clockReadings : ℕ := 0

/-- A computation on the normaliser, which emits envelopes. -/
abbrev Emit := Emitter RuntimeEnvelopeNormalizer RuntimeEnvelope

/-! ### Envelopes -/

def sourceForStreamBlock : StreamBlock → RuntimeEnvelopeSource
  | .toolResult .. => .runtime
  | .thinking .. | .toolCall .. | .finalText .. => .model

def sourceForSignal : RuntimeSignal → RuntimeEnvelopeSource
  | .pulseStart .. | .approvalResolved .. => .userRequest
  | .transcriptLine .. => .runtime
  | .transcriptBlockStart _ block => sourceForStreamBlock block
  | .transcriptBlockComplete .. | .toolCallStarted .. | .toolCallArgumentsDelta ..
  | .serverMetadata .. | .usageUpdated .. => .model
  | .transcriptBlockDelta .. => .runtime
  | .toolCallStatusUpdated .. | .transcriptBlockPhaseUpdated .. | .toolCallCompleted ..
  | .toolCallFailed .. | .approvalRequest .. | .validationResult .. | .pulseEnd .. | .error ..
  | .maxTurnsReached .. => .runtime

namespace RuntimeEnvelopeNormalizer

variable (host : Host)

/-- `Utc::now`. -/
def utcNow : Emit ℤ := do
  let s ← read
  modify fun s => { s with clockReadings := s.clockReadings + 1 }
  pure (host.now s.clockReadings)

def nextEnvelopeWithSource (signal : RuntimeSignal) (requestId parentFrameId : Option String)
    (source : Option RuntimeEnvelopeSource) : Emit RuntimeEnvelope := do
  let emittedAt ← utcNow host
  let s ← read
  modify fun s => { s with nextSeq := saturatingSucc s.nextSeq }
  pure {
    version := 1
    taskId := s.taskId
    pulse := s.pulse
    seq := s.nextSeq
    frameId := "evt:" ++ s.taskId ++ ":" ++ toString s.pulse ++ ":" ++ toString s.nextSeq
    emittedAt := host.timestampString emittedAt
    source := source.getD (sourceForSignal signal)
    requestId
    parentFrameId
    signal }

def nextEnvelopeWithContext (signal : RuntimeSignal) (requestId parentFrameId : Option String) :
    Emit RuntimeEnvelope :=
  nextEnvelopeWithSource host signal requestId parentFrameId none

def nextEnvelope (signal : RuntimeSignal) : Emit RuntimeEnvelope :=
  nextEnvelopeWithContext host signal none none

def emitSignal (signal : RuntimeSignal) : Emit RuntimeEnvelope := nextEnvelope host signal

def startPulse (pulse : ℕ) (input : Option String) : Emit RuntimeEnvelope := do
  modify fun s => { s with
    pulse
    pendingToolCalls := []
    pendingToolCallContexts := []
    streamingToolCallBlocks := []
    blockSources := []
    turnChangedFiles := []
    openFinalTextBlock := none
    nextSyntheticBlockIndex := syntheticFinalTextBlockStart
    protocolIngress := {} }
  nextEnvelope host (.pulseStart input)

/-! ### Tool calls -/

def hexDigits4 (n : ℕ) : String :=
  let digits := Nat.toDigits 16 n
  String.ofList (List.replicate (4 - digits.length) '0' ++ digits)

def generateToolCallId : Emit String := do
  let s ← read
  modify fun s => { s with
    clockReadings := s.clockReadings + 1
    toolIdCounter := (s.toolIdCounter + 1) % 2 ^ 32 }
  let entropy := (host.nanosecond s.clockReadings ^^^ s.toolIdCounter) &&& 0xffff
  let count := min (s.toolIdCounter + 1) (2 ^ 32 - 1)
  pure ("tx_" ++ toString count ++ "_" ++ hexDigits4 entropy)

def serializeToolArguments (arguments : Value) : List Char :=
  match arguments with
  | .object [] => []
  | _ => host.codec.toString arguments

def recordToolCall (sourceId name : String) (arguments : Value) : Emit RuntimeEnvelope := do
  let runtimeId ← generateToolCallId host
  let startedAt ← utcNow host
  let envelope ← nextEnvelope host
    (.toolCallStarted runtimeId name arguments .pending (host.timestampString startedAt))
  modify fun s => { s with
    pendingToolCalls := insertLast sourceId
      { runtimeId, name, arguments
        rawArguments := serializeToolArguments host arguments
        startFrameId := envelope.frameId, startedAt } s.pendingToolCalls
    pendingToolCallContexts := insertLast runtimeId
      { name, startFrameId := envelope.frameId } s.pendingToolCallContexts }
  pure envelope

def firstStringField (input : Value) (names : List String) : Option String :=
  (names.findSome? fun key => (input.get? key).bind Value.asStr).bind fun s =>
    let trimmed := trim s.toList
    if trimmed.isEmpty then none else some (String.ofList trimmed)

/-- The paths that `note_changed_files_from_tool_call` adds. -/
def changedFilesOfToolCall (name : String) (input : Value) : List String :=
  if name ∈ ["write_file", "apply_patch", "edit_file", "git_add"] then
    (firstStringField input ["path", "file_path", "file", "filename"]).toList
  else if name = "rename_file" then
    ["old_path", "from", "source_path", "new_path", "to", "target_path"].filterMap fun key =>
      firstStringField input [key]
  else []

def recordToolResult (sourceId output : String) (isError : Bool) : Emit RuntimeEnvelope := do
  let completedAt ← utcNow host
  let completedAtValue := host.timestampString completedAt
  let s ← read
  match find? sourceId s.pendingToolCalls with
  | some pending =>
    modify fun s => { s with
      pendingToolCalls := erase sourceId s.pendingToolCalls
      pendingToolCallContexts := erase pending.runtimeId s.pendingToolCallContexts
      turnChangedFiles :=
        if isError then s.turnChangedFiles
        else (changedFilesOfToolCall pending.name pending.arguments).foldl
          (fun files path => insertElem path files) s.turnChangedFiles }
    let durationMs := (max (completedAt - pending.startedAt) 0).toNat
    let startedAt := some (host.timestampString pending.startedAt)
    nextEnvelopeWithContext host
      (if isError then
        .toolCallFailed pending.runtimeId (some pending.name) .error startedAt completedAtValue
          (some durationMs) output
      else
        .toolCallCompleted pending.runtimeId (some pending.name) .complete startedAt
          completedAtValue (some durationMs) output)
      none (some pending.startFrameId)
  | none =>
    nextEnvelope host
      (if isError then .toolCallFailed sourceId none .error none completedAtValue none output
      else .toolCallCompleted sourceId none .complete none completedAtValue none output)

/-- Append to the raw arguments of the call with this runtime id, the first of them; the arguments
that the whole then parses to are kept as well. -/
def appendToPending (toolCallId : String) (delta : List Char) :
    List (String × PendingToolCall) → List (String × PendingToolCall) × Option Value
  | [] => ([], none)
  | (sourceId, pending) :: calls =>
    if pending.runtimeId = toolCallId then
      let raw := pending.rawArguments ++ delta
      match (host.codec.fromStr raw).or (host.codec.fromStr (trim raw)) with
      | some arguments =>
        ((sourceId, { pending with rawArguments := raw, arguments }) :: calls, some arguments)
      | none => ((sourceId, { pending with rawArguments := raw }) :: calls, none)
    else
      let (calls', arguments) := appendToPending toolCallId delta calls
      ((sourceId, pending) :: calls', arguments)

def appendPendingToolDelta (toolCallId delta : String) : Emit (Option Value) := do
  let s ← read
  modify fun s => { s with
    pendingToolCalls := (appendToPending host toolCallId delta.toList s.pendingToolCalls).1 }
  pure (appendToPending host toolCallId delta.toList s.pendingToolCalls).2

def recordToolCallArgumentsDelta (toolCallId delta : String) : Emit RuntimeEnvelope := do
  let s ← read
  let context := find? toolCallId s.pendingToolCallContexts
  let arguments ← appendPendingToolDelta host toolCallId delta
  nextEnvelopeWithContext host
    (.toolCallArgumentsDelta toolCallId (context.map (·.name)) delta .pending arguments false)
    none (context.map (·.startFrameId))

/-! ### User interface updates -/

def normalizeStreamBlock (block : StreamBlock) : Emit Unit :=
  match block with
  | .toolCall id name input _ => do
    emit (← recordToolCall host id name input)
  | .toolResult toolCallId output isError => do
    emit (← recordToolResult host toolCallId output isError)
  | .thinking .. | .finalText .. => pure ()

def closeOpenFinalTextBlock : Emit Unit := do
  let s ← read
  match s.openFinalTextBlock with
  | none => pure ()
  | some index =>
    modify fun s => { s with
      openFinalTextBlock := none
      blockSources := erase index s.blockSources }
    emit (← nextEnvelopeWithSource host (.transcriptBlockComplete index) none none
      (find? index s.blockSources))

/-- The index of the open final text block; a new one is started if there is none. -/
def ensureOpenFinalTextBlock : Emit ℕ := do
  let s ← read
  match s.openFinalTextBlock with
  | some index => pure index
  | none =>
    let index := s.nextSyntheticBlockIndex
    modify fun s => { s with
      nextSyntheticBlockIndex := saturatingSucc s.nextSyntheticBlockIndex
      openFinalTextBlock := some index
      blockSources := insertSorted index .model s.blockSources }
    emit (← nextEnvelopeWithSource host (.transcriptBlockStart index (.finalText "")) none none
      (some .model))
    pure index

def resolveChangedFiles (changedFiles : List String) : Emit (List String) := do
  let s ← read
  pure (if changedFiles.isEmpty then s.turnChangedFiles else changedFiles)

/-- What ends a pulse forgets: the calls and the blocks. -/
def clearPulse (s : RuntimeEnvelopeNormalizer) : RuntimeEnvelopeNormalizer :=
  { s with
    pendingToolCalls := [], pendingToolCallContexts := [], streamingToolCallBlocks := []
    blockSources := [] }

def finishTurnWithStatus (status : String) (turnEnd : PulseEndContext) : Emit Unit := do
  let changedFiles ← resolveChangedFiles turnEnd.changedFiles
  closeOpenFinalTextBlock host
  modify clearPulse
  emit (← nextEnvelope host (.pulseEnd status turnEnd.usage changedFiles))

def completeTurn (turnEnd : PulseEndContext) : Emit Unit :=
  finishTurnWithStatus host "completed" turnEnd

def emitError (code message : String) (recoverable : Bool) (turnEnd : PulseEndContext) :
    Emit Unit := do
  closeOpenFinalTextBlock host
  emit (← nextEnvelope host (.error code message recoverable))
  if recoverable then pure ()
  else do
    let changedFiles ← resolveChangedFiles turnEnd.changedFiles
    modify clearPulse
    emit (← nextEnvelope host (.pulseEnd "failed" turnEnd.usage changedFiles))

def capabilityNameForTool (toolName : String) : Option String :=
  if toolName ∈ ["read_file", "list_files", "list_directory", "list_dir", "glob_files", "search",
      "search_files", "search_content", "find_files", "git_status", "git_diff", "git_log",
      "git_show"] then some "read-file"
  else if toolName ∈ ["write_file", "edit_file", "rename_file"] then some "write-file"
  else if toolName ∈ ["apply_patch", "git_add", "git_commit"] then some "apply-patch"
  else if toolName = "run_command" then some "run-command"
  else none

def approvalRequestSignal (request : ToolApprovalRequest) : RuntimeSignal :=
  .approvalRequest ((capabilityNameForTool request.toolName).getD "unknown") "once"
    (some request.toolName)

def normalizeUiUpdate (update : UiUpdate) (turnEnd : Option PulseEndContext) : Emit Unit :=
  match update with
  | .transcriptLine line => do
    closeOpenFinalTextBlock host
    emit (← nextEnvelope host (.transcriptLine line))
  | .streamDelta text => do
    let index ← ensureOpenFinalTextBlock host
    let s ← read
    emit (← nextEnvelopeWithSource host (.transcriptBlockDelta index text) none none
      (find? index s.blockSources))
  | .streamBlockStart index block => do
    closeOpenFinalTextBlock host
    let source := sourceForStreamBlock block
    modify fun s => { s with blockSources := insertSorted index source s.blockSources }
    emit (← nextEnvelopeWithSource host (.transcriptBlockStart index block) none none (some source))
    normalizeStreamBlock host block
    match block with
    | .toolCall id .. =>
      modify fun s => { s with
        streamingToolCallBlocks := match find? id s.pendingToolCalls with
          | some pending => insertSorted index pending.runtimeId s.streamingToolCallBlocks
          | none => s.streamingToolCallBlocks }
    | _ => pure ()
  | .streamBlockDelta index delta => do
    let s ← read
    emit (← nextEnvelopeWithSource host (.transcriptBlockDelta index delta) none none
      (find? index s.blockSources))
    match find? index s.streamingToolCallBlocks with
    | some runtimeId => emit (← recordToolCallArgumentsDelta host runtimeId delta)
    | none => pure ()
  | .streamBlockComplete index => do
    let s ← read
    modify fun s => { s with
      streamingToolCallBlocks := erase index s.streamingToolCallBlocks
      blockSources := erase index s.blockSources }
    emit (← nextEnvelopeWithSource host (.transcriptBlockComplete index) none none
      (find? index s.blockSources))
  | .pulseComplete => completeTurn host (turnEnd.getD {})
  | .error message => emitError host "runtime_error" message false (turnEnd.getD {})
  | .toolApprovalRequest request => do
    closeOpenFinalTextBlock host
    emit (← nextEnvelope host (approvalRequestSignal request))
  | .serverMetadata metadata => do
    emit (← nextEnvelope host (.serverMetadata metadata))
  | .unreported => pure ()

end RuntimeEnvelopeNormalizer

end Vexcoder.Handoff

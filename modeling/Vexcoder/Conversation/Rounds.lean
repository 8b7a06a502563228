import Vexcoder.Conversation.Streaming

/-!
# The rounds of a turn

What `send_message` keeps between its awaits, and the code between them: how a signal of the stream
is taken in, how a round that repeats itself is stopped, and how the calls of a round are answered.
-/

namespace Vexcoder.Conversation

open Base Lib Lib.Assoc Lib.Emitter Vexcoder.Runtime Vexcoder.Task

/-- The variables of `send_message` that live as long as the turn. -/
structure TurnState where
  originalUserInput : String
  turnToolPolicy : PulseToolPolicy
  contextWindowTokens : ℕ
  turnUserAnchorIndex : ℕ
  rounds : ℕ := 0
  forcedToolRetryCount : ℕ := 0
  sawAnyToolRound : Bool := false
  previousRoundSignature : Option (List String) := none
  seenReadOnlySignatures : List (List String) := []
  repeatedReadOnlyRounds : ℕ := 0
  repeatedMutatingRounds : ℕ := 0
  repeatedRoundNudgeUsed : Bool := false
  finalAnswerAttempted : Bool := false
  lastReadFileAnchor : Option (String × Option ℕ) := none
  lastAssistantTextForHistory : String := ""
  turnTokens : PulseTokens := {}
  overflowRetryCount : ℕ := 0
  preserveCurrentUserOnOverflow : Bool := false
  deriving DecidableEq

/-- The variables that live as long as the stream of a round. -/
structure RoundState where
  assistantText : String := ""
  toolUseBlocks : List ContentBlock := []
  toolUsePositions : List (String × ℕ) := []
  pendingToolBlockIndices : List ℕ := []
  toolBlockIndices : List (String × ℕ) := []
  blockToolCallIds : List (ℕ × String) := []
  completedToolCallIds : List String := []
  sawUsageUpdate : Bool := false
  sawNativeToolCallBlock : Bool := false
  deriving DecidableEq

variable (env : Environment)

def TurnState.requiresToolEvidence (t : TurnState) : Bool :=
  requestRequiresToolEvidence t.originalUserInput

/-! ### The stream of a round -/

def accumulateUsageEnvelope (tokens : PulseTokens) (usage : Option TokenUsageEnvelope) :
    PulseTokens :=
  match usage with
  | none => tokens
  | some usage =>
    { input := saturatingAdd tokens.input usage.input
      output := saturatingAdd tokens.output usage.output
      estimated := tokens.estimated || usage.estimated
      cacheCreationInputTokens :=
        saturatingAdd tokens.cacheCreationInputTokens usage.cacheCreationInput
      cacheReadInputTokens := saturatingAdd tokens.cacheReadInputTokens usage.cacheReadInput }

/-- The call takes its place among those of the round, or the place of the one with its id. -/
def RoundState.startCall (r : RoundState) (toolCallId toolName : String) (arguments : Value) :
    RoundState :=
  let block := ContentBlock.toolUse toolCallId toolName arguments
  match find? toolCallId r.toolUsePositions with
  | some position => { r with toolUseBlocks := r.toolUseBlocks.set position block }
  | none =>
    { r with
      toolUsePositions := insertLast toolCallId r.toolUseBlocks.length r.toolUsePositions
      toolUseBlocks := r.toolUseBlocks ++ [block] }

def RoundState.updateCall (r : RoundState) (toolCallId : String) (toolName : Option String)
    (arguments : Option Value) : RoundState :=
  match find? toolCallId r.toolUsePositions with
  | none => r
  | some position =>
    { r with
      toolUseBlocks := r.toolUseBlocks.modify position fun block =>
        match block with
        | .toolUse id name input => .toolUse id (toolName.getD name) (arguments.getD input)
        | block => block }

def receiveBlockStart (r : RoundState) (index : ℕ) (block : StreamBlock) :
    Emitter ConversationManager Report RoundState := do
  match block with
  | .thinking .. | .finalText _ => do
    upsertTurnBlock env index block
    pure r
  | .toolCall id .. =>
    pure { r with
      sawNativeToolCallBlock := r.sawNativeToolCallBlock || !Text.startsWith id "toolu_tagged_"
      pendingToolBlockIndices := r.pendingToolBlockIndices ++ [index] }
  | .toolResult .. => do
    emitStreamBlockStartUpdate env index block
    pure r

def receiveBlockDelta (r : RoundState) (index : ℕ) (delta : String) :
    Emitter ConversationManager Report RoundState := do
  if (find? index r.blockToolCallIds).isSome then pure r
  else do
    let appended ← appendTextDelta env index delta
    pure { r with assistantText := r.assistantText ++ appended }

/-- The call takes the first of the blocks that the stream has opened for calls. -/
def takePendingBlock (r : RoundState) (toolCallId toolName : String) (arguments : Value) :
    Emitter ConversationManager Report RoundState :=
  match r.pendingToolBlockIndices with
  | [] => pure r
  | index :: pending => do
    emitStreamBlockStartUpdate env index (.toolCall toolCallId toolName arguments .pending)
    pure { r with
      pendingToolBlockIndices := pending
      toolBlockIndices := insertLast toolCallId index r.toolBlockIndices
      blockToolCallIds := insertLast index toolCallId r.blockToolCallIds }

def receiveToolCallStarted (r : RoundState) (toolCallId toolName : String) (arguments : Value)
    (status : ToolStatus) (startedAt : String) : Emitter ConversationManager Report RoundState := do
  forSome (env.parseTimestamp startedAt) fun startedAt => recordToolCallStartedAt toolCallId startedAt
  let r ← takePendingBlock env r toolCallId toolName arguments
  applyDocDelta env (.toolCallStarted toolCallId toolName arguments status startedAt)
  pure (r.startCall toolCallId toolName arguments)

def receiveToolCallArgumentsDelta (r : RoundState) (toolCallId : String)
    (toolName : Option String) (delta : String) (status : ToolStatus) (arguments : Option Value)
    (invalidJson : Bool) : Emitter ConversationManager Report RoundState := do
  forSome (find? toolCallId r.toolBlockIndices) fun index => emitStreamUpdate (.blockDelta index delta)
  forSome arguments fun arguments =>
    emitStreamUpdate (.toolCallArgumentsUpdated toolCallId toolName arguments)
  applyDocDelta env (.toolCallArgumentsDelta toolCallId toolName delta status arguments invalidJson)
  pure (r.updateCall toolCallId toolName arguments)

/-- One signal of the stream. -/
def receiveSignal (t : TurnState) (r : RoundState) (signal : RuntimeSignal) :
    Emitter ConversationManager Report (TurnState × RoundState) := do
  match signal with
  | .pulseStart _ => pure (t, r)
  | .transcriptLine line => do
    applyDocDelta env signal
    emitStreamUpdate (.transcriptLine line)
    pure (t, r)
  | .transcriptBlockStart index block => do
    let r ← receiveBlockStart env r index block
    pure (t, r)
  | .transcriptBlockDelta index delta => do
    let r ← receiveBlockDelta env r index delta
    pure (t, r)
  | .transcriptBlockComplete index => do
    onlyIf (find? index r.blockToolCallIds).isNone (applyDocDelta env signal)
    emitStreamUpdate (.blockComplete index)
    pure (t, r)
  | .transcriptBlockPhaseUpdated .. | .toolCallStatusUpdated .. | .approvalRequest ..
  | .approvalResolved .. | .validationResult .. | .maxTurnsReached _ => do
    applyDocDelta env signal
    pure (t, r)
  | .toolCallStarted toolCallId toolName arguments status startedAt => do
    let r ← receiveToolCallStarted env r toolCallId toolName arguments status startedAt
    pure (t, r)
  | .toolCallArgumentsDelta toolCallId toolName delta status arguments invalidJson => do
    let r ← receiveToolCallArgumentsDelta env r toolCallId toolName delta status arguments invalidJson
    pure (t, r)
  | .toolCallCompleted toolCallId _ _ _ _ _ output => do
    applyDocDelta env signal
    pushToolResultBlock env toolCallId output false
    pure (t, { r with completedToolCallIds := toolCallId :: r.completedToolCallIds })
  | .toolCallFailed toolCallId _ _ _ _ _ output => do
    applyDocDelta env signal
    pushToolResultBlock env toolCallId output true
    pure (t, { r with completedToolCallIds := toolCallId :: r.completedToolCallIds })
  | .serverMetadata metadata => do
    emitServerMetadataUpdate metadata
    applyDocDelta env signal
    pure (t, r)
  | .usageUpdated usage =>
    pure ({ t with turnTokens := accumulateUsageEnvelope t.turnTokens (some usage) },
      { r with sawUsageUpdate := true })
  | .pulseEnd _ usage _ =>
    if r.sawUsageUpdate then pure (t, r)
    else pure ({ t with turnTokens := accumulateUsageEnvelope t.turnTokens usage }, r)
  | .error code message _ => do
    emitStreamUpdate (.streamError ("stream error (" ++ code ++ "): " ++ message))
    pure (t, r)

/-- The calls that the stream has not completed itself. -/
def RoundState.openCalls (r : RoundState) : List ContentBlock :=
  r.toolUseBlocks.filter fun block =>
    match block with
    | .toolUse id .. => id ∉ r.completedToolCallIds
    | _ => true

def RoundState.useStructuredRound (r : RoundState) : Bool :=
  env.client.supportsStructuredToolProtocol && (!env.client.isLocalEndpoint || r.sawNativeToolCallBlock)

/-! ### Rounds that repeat -/

/-- What becomes of a round: it is stopped with a message, the model is told not to repeat itself,
or it goes on. -/
inductive RoundVerdict where
  | stop (message : String)
  | nudge
  | proceed
  deriving DecidableEq

def hasEmptyPathCall (blocks : List ContentBlock) : Bool :=
  blocks.any fun block =>
    match block with
    | .toolUse _ name input =>
      name ∈ ["read_file", "list_files"] && (missingReadOnlyLocationPrompt name input).isSome
    | _ => false

def insertSignature (signature : List String) (seen : List (List String)) : List (List String) :=
  if signature ∈ seen then seen else signature :: seen

/-- The counters of repeated rounds behind a round with these calls. -/
def TurnState.countRound (t : TurnState) (blocks : List ContentBlock) : TurnState :=
  if blocks.isEmpty then
    { t with previousRoundSignature := none, repeatedReadOnlyRounds := 0, repeatedMutatingRounds := 0 }
  else
    let currentSignature := toolRoundSignature env.codec.toString blocks
    let repeatedSignature := t.previousRoundSignature = some currentSignature
    let isReadOnly := isReadOnlyToolRound blocks
    { t with
      sawAnyToolRound := true
      seenReadOnlySignatures :=
        if isReadOnly then insertSignature currentSignature t.seenReadOnlySignatures
        else t.seenReadOnlySignatures
      repeatedReadOnlyRounds :=
        if isReadOnly && currentSignature ∈ t.seenReadOnlySignatures then
          t.repeatedReadOnlyRounds + 1
        else 0
      repeatedMutatingRounds :=
        if isMutatingToolRound blocks && repeatedSignature then t.repeatedMutatingRounds + 1 else 0
      previousRoundSignature := some currentSignature }

/-- The verdict on a round with these calls, by the counters behind it. -/
def roundVerdict (t : TurnState) (blocks : List ContentBlock) (assistantText : String) :
    RoundVerdict :=
  if blocks.isEmpty then .proceed
  else if 1 ≤ t.repeatedMutatingRounds then
    .stop (renderRepeatedMutatingToolGuardMessage assistantText)
  else
    let repeatThreshold := if hasEmptyPathCall blocks || env.client.isLocalEndpoint then 1 else 2
    if t.repeatedReadOnlyRounds < repeatThreshold then .proceed
    else if !t.repeatedRoundNudgeUsed && t.rounds < env.resolveMaxToolRounds &&
        !hasEmptyPathCall blocks then .nudge
    else .stop (renderRepeatedToolGuardMessage assistantText)

def emitGuardLine (message : String) : Emitter ConversationManager Report Unit :=
  forSome ((Text.lines message).find? fun line => Text.startsWith line "[loop guard]") fun line =>
    emitStreamUpdate (.transcriptLine line)

/-! ### The messages of a round -/

def assistantMessage (blocks : List ContentBlock) (assistantText : String)
    (useStructuredRound : Bool) : ApiMessage :=
  let limit := env.resolveHistoryLimits.maxAssistantHistoryChars
  if useStructuredRound then
    let text :=
      if Text.isEmpty assistantText then []
      else [ContentBlock.text (truncateForHistory assistantText limit)]
    { role := "assistant", content := .blocks (text ++ blocks) }
  else
    let source :=
      if !blocks.isEmpty then
        let rendered := renderToolCallsForHistory env blocks
        if Text.isEmpty assistantText then rendered else assistantText ++ "\n" ++ rendered
      else assistantText
    { role := "assistant", content := .text (truncateForHistory source limit) }

structure ToolCall where
  id : String
  name : String
  input : Value
  deriving DecidableEq

def ContentBlock.toolCall? : ContentBlock → Option ToolCall
  | .toolUse id name input => some { id, name, input }
  | _ => none

/-- The variables that live as long as the calls of a round are worked through. -/
structure ToolRound where
  useStructuredRound : Bool
  remaining : List ToolCall
  toolResultBlocks : List ContentBlock := []
  textProtocolToolResults : List String := []
  deriving DecidableEq

def ToolRound.answer (e : ToolRound) (call : ToolCall) (content rendered : String)
    (isError : Bool) : ToolRound :=
  if e.useStructuredRound then
    { e with toolResultBlocks := e.toolResultBlocks ++ [.toolResult call.id content isError] }
  else
    { e with
      textProtocolToolResults := e.textProtocolToolResults ++
        [truncateForHistory rendered env.resolveHistoryLimits.maxToolResultHistoryChars] }

def emitToolError (e : ToolRound) (call : ToolCall) (clarification : String) :
    Emitter ConversationManager Report ToolRound := do
  emitTextUpdate clarification
  pure (e.answer env call
    (truncateForHistory clarification env.resolveHistoryLimits.maxToolResultHistoryChars)
    ("tool_error " ++ call.name ++ ":\n" ++ clarification) true)

def ToolRound.resultMessage (e : ToolRound) : ApiMessage :=
  if e.useStructuredRound then { role := "user", content := .blocks e.toolResultBlocks }
  else userText (Text.join "\n\n" e.textProtocolToolResults)

/-! ### Answering the calls -/

/-- A call without a location, with a hint at the file that was read last. -/
def readOnlyClarification (t : TurnState) (call : ToolCall) : Option String :=
  (missingReadOnlyLocationPrompt call.name call.input).map fun clarification =>
    match t.lastReadFileAnchor with
    | some (lastPath, lastOffset) =>
      if call.name = "read_file" then
        let offsetHint := (lastOffset.map fun offset => " at offset " ++ toString offset).getD ""
        clarification ++ " You were most recently reading '" ++ lastPath ++ "'" ++ offsetHint ++
          " — specify that path to continue."
      else clarification
    | none => clarification

/-- The answer to a call that is not run: the four guards of the sequential executor in order. -/
def guardClarification (t : TurnState) (call : ToolCall) : Option String :=
  (((readOnlyClarification t call).or (missingMutatingLocationPrompt call.name call.input)).or
    (mutatingToolReadOnlyConflictPrompt env t.originalUserInput call.name)).or
    (testsOnlyMutationConflictPrompt t.turnToolPolicy call.name call.input)

/-- The guards of the parallel executor. -/
def parallelGuard (t : TurnState) (call : ToolCall) : Option String :=
  ((missingReadOnlyLocationPrompt call.name call.input).or
    (missingMutatingLocationPrompt call.name call.input)).or
    (mutatingToolReadOnlyConflictPrompt env t.originalUserInput call.name)

/-- A call that a guard answers. -/
def refuseCall (e : ToolRound) (call : ToolCall) (clarification : String) :
    Emitter ConversationManager Report ToolRound := do
  setToolCallStatus env call.id .cancelled
  pushToolResultBlock env call.id clarification true
  emitToolError env e call clarification

/-- A call that the user has not approved. -/
def denyCall (e : ToolRound) (call : ToolCall) : Emitter ConversationManager Report ToolRound := do
  let denial := renderToolDeniedMessage call.name
  setToolCallStatus env call.id .cancelled
  pushToolResultBlock env call.id denial true
  emitToolError env e call denial

def TurnState.noteRead (t : TurnState) (call : ToolCall) (result : Except String String) :
    TurnState :=
  match result, (call.input.get? "path").bind Value.asStr with
  | .ok _, some path =>
    if call.name = "read_file" then
      { t with lastReadFileAnchor := some (path, (call.input.get? "offset").bind asU64) }
    else t
  | _, _ => t

/-- The content of a file that was read and has the hash of what was read last. -/
def unchangedOutput? (cache : ReadFileRollupCache) (call : ToolCall)
    (result : Except String String) : Option String :=
  match result with
  | .ok output =>
    if call.name = "read_file" &&
        (cache.summarize env.hashContent (readPath call.input) output).1.isUnchanged then some output
    else none
  | .error _ => none

/-- `self.format_tool_result_for_history`, with the report of a read that has not changed. -/
def formatForHistory (call : ToolCall) (result : Except String String) :
    Emitter ConversationManager Report String := do
  let m ← read
  let (text, cache) :=
    formatToolResultForHistory env m.readFileHistoryCache call.name call.input result
  forSome (unchangedOutput? env m.readFileHistoryCache call result) fun output =>
    emit (.answeredUnchanged (readPath call.input) output)
  modify fun m => { m with readFileHistoryCache := cache }
  pure text

def resultText : Except String String → String
  | .ok output => output
  | .error error => error

def resultIsError : Except String String → Bool
  | .ok _ => false
  | .error _ => true

/-- A call that has been run. -/
def recordResult (t : TurnState) (e : ToolRound) (call : ToolCall) (result : Except String String) :
    Emitter ConversationManager Report (TurnState × ToolRound) := do
  let isError := resultIsError result
  setToolCallStatus env call.id (if isError then .error else .complete)
  pushToolResultBlock env call.id (resultText result) isError
  let text ← formatForHistory env call result
  let content := truncateForHistory text env.resolveHistoryLimits.maxToolResultHistoryChars
  let label := if isError then "tool_error " else "tool_result "
  pure (t.noteRead call result,
    e.answer env call content (label ++ call.name ++ ":\n" ++ content) isError)

end Vexcoder.Conversation

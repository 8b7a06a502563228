import Vexcoder.Handoff.Normalizer

/-!
# Protocol ingress

The stream items of the two provider protocols, and what `RuntimeEnvelopeNormalizer` makes of them:
transcript blocks, tool calls, usage and metadata of one pulse.

A tagged tool call found in text opens and closes a block of its own, so the source's functions are
mutually recursive.  `emitNormalisedProviderChunksAt` is that recursion cut off at a depth; depth one
is never exceeded (`emitNormalisedProviderChunksAt_succ`).
-/

namespace Vexcoder.Handoff

open Base Lib Lib.Assoc Lib.Emitter Vexcoder.Runtime
open Vexcoder.Stream

/-! ### Provider items -/

inductive ProviderContentBlock where
  | text (text : String)
  | toolUse (id name : String) (input : Value)
  | toolResult
  | thinking (thinking : String)
  | thinkingData (data : String)
  | serverToolUse (id name : String) (input : Value)
  | webSearchToolResult

inductive ProviderBlockDelta where
  | text (delta : String)
  | toolArguments (delta : String)

structure ProviderDelta where
  text : Option String := none
  partialJson : Option String := none
  thinking : Option String := none

inductive ProviderStreamItem where
  | messageStart (usage : Option ApiUsage) (metadata : Option StreamChunkMetadata)
  | contentBlockStart (index : ℕ) (contentBlock : Value)
  | contentBlockDelta (index : ℕ) (delta : ProviderDelta)
  | contentBlockStop (index : ℕ)
  | messageDelta (metadata : Option StreamChunkMetadata) (usage : Option ApiUsage)
  | messageStop
  | ping
  | error (errorType message : String)
  | unknown

/-! ### Chat-compat chunks -/

inductive ChatCompatFunctionArguments where
  | string (s : String)
  | json (value : Value)

structure ChatCompatFunctionDelta where
  name : Option String := none
  arguments : Option ChatCompatFunctionArguments := none

structure ChatCompatToolCallDelta where
  index : Option ℕ := none
  id : Option String := none
  function : Option ChatCompatFunctionDelta := none

structure ChatCompatDelta where
  role : Option String := none
  content : Option String := none
  reasoningContent : Option String := none
  refusal : Option String := none
  toolCalls : Option (List ChatCompatToolCallDelta) := none

structure ChatCompatChoice where
  index : Option ℕ := none
  delta : ChatCompatDelta := {}
  finishReason : Option String := none
  logprobs : Option Value := none

structure ChatCompatChunk where
  id : Option String := none
  object : Option String := none
  created : Option ℕ := none
  model : Option String := none
  systemFingerprint : Option String := none
  serviceTier : Option String := none
  promptProgress : Option StreamPromptProgress := none
  timings : Option StreamTimings := none
  choices : List ChatCompatChoice := []
  usage : Option ApiUsage := none

inductive ChatCompatPayload where
  | done
  | chunk (chunk : ChatCompatChunk)

def maxToolCallIndex : ℕ := 1024

/-- The machine, and how the JSON library reads a `content_block` value. -/
structure Ingress extends Host where
  contentBlock : Value → Except String ProviderContentBlock

def sampleIngress : Ingress where
  now _ := 0
  nanosecond _ := 0
  timestampString _ := "1970-01-01T00:00:00.000Z"
  codec := { fromStr := fun _ => none, toString := fun _ => [], parseF64 := fun _ => none }
  contentBlock _ := .error "missing field"

/-! ### Pure parts -/

def providerStreamBlock : ProviderContentBlock → Option (StreamBlock × Option String)
  | .text text => some (.thinking "" false, some text)
  | .thinking thinking => some (.thinking "" false, some thinking)
  | .thinkingData data => some (.thinking "" false, some data)
  | .toolUse id name input | .serverToolUse id name input =>
    some (.toolCall id name input .pending, none)
  | .toolResult | .webSearchToolResult => none

def needsTextNormaliser : ProviderContentBlock → Bool
  | .text _ | .thinking _ | .thinkingData _ => true
  | _ => false

def nonemptyStr (s : Option String) : Option String := s.filter (· ≠ "")

def providerBlockDelta (delta : ProviderDelta) : Option ProviderBlockDelta :=
  match nonemptyStr delta.text, nonemptyStr delta.thinking, nonemptyStr delta.partialJson with
  | some text, _, _ => some (.text text)
  | none, some thinking, _ => some (.text thinking)
  | none, none, some json => some (.toolArguments json)
  | none, none, none => none

def messageStartMetadata (metadata : Option StreamChunkMetadata) : Option StreamChunkMetadata :=
  metadata.bind fun metadata =>
    let metadata := { metadata with promptProgress := none, timings := none }
    if metadata.object.isSome || metadata.created.isSome || metadata.systemFingerprint.isSome ||
        metadata.serviceTier.isSome || metadata.choiceIndex.isSome || metadata.logprobs.isSome then
      some metadata
    else none

def chatCompatMetadata (chunk : ChatCompatChunk) (choiceIndex : Option ℕ)
    (logprobs : Option Value) : Option StreamChunkMetadata :=
  let metadata : StreamChunkMetadata := {
    object := chunk.object, created := chunk.created
    systemFingerprint := chunk.systemFingerprint, serviceTier := chunk.serviceTier
    choiceIndex, logprobs, promptProgress := chunk.promptProgress, timings := chunk.timings }
  if metadata.object.isSome || metadata.created.isSome || metadata.systemFingerprint.isSome ||
      metadata.serviceTier.isSome || metadata.choiceIndex.isSome || metadata.logprobs.isSome ||
      metadata.promptProgress.isSome || metadata.timings.isSome then
    some metadata
  else none

def tokenUsageFromApiUsage (usage : ApiUsage) : Option TokenUsageEnvelope :=
  let usage : TokenUsageEnvelope := {
    input := usage.inputTokens.getD 0, output := usage.outputTokens.getD 0
    cacheCreationInput := usage.cacheCreationInputTokens.getD 0
    cacheReadInput := usage.cacheReadInputTokens.getD 0 }
  if usage.input ≠ 0 ∨ usage.output ≠ 0 ∨ usage.cacheCreationInput ≠ 0 ∨ usage.cacheReadInput ≠ 0 then
    some usage
  else none

def tokenUsageFromTurnTokens (tokens : PulseTokens) : Option TokenUsageEnvelope :=
  if tokens.isZero then none
  else some {
    input := tokens.input, output := tokens.output, estimated := tokens.estimated
    cacheCreationInput := tokens.cacheCreationInputTokens
    cacheReadInput := tokens.cacheReadInputTokens }

def accumulateTurnTokens (tokens : PulseTokens) (usage : ApiUsage) : PulseTokens :=
  { tokens with
    input := saturatingAdd tokens.input (usage.inputTokens.getD 0)
    output := saturatingAdd tokens.output (usage.outputTokens.getD 0)
    cacheCreationInputTokens :=
      saturatingAdd tokens.cacheCreationInputTokens (usage.cacheCreationInputTokens.getD 0)
    cacheReadInputTokens :=
      saturatingAdd tokens.cacheReadInputTokens (usage.cacheReadInputTokens.getD 0) }

def addArguments (host : Host) (state : PendingChatCompatToolState) :
    ChatCompatFunctionArguments → PendingChatCompatToolState
  | .string arguments =>
    { state with
      pendingArguments := state.pendingArguments ++
        (state.materializedArguments.map host.codec.toString).getD [] ++ arguments.toList
      materializedArguments := none }
  | .json arguments =>
    if state.lifecycle = .discovered ∧ state.pendingArguments = [] then
      { state with materializedArguments := some arguments }
    else
      { state with
        pendingArguments := state.pendingArguments ++
          (state.materializedArguments.map host.codec.toString).getD [] ++
          host.codec.toString arguments
        materializedArguments := none }

def mergeToolDelta (host : Host) (toolCall : ChatCompatToolCallDelta)
    (state : PendingChatCompatToolState) : PendingChatCompatToolState :=
  let state := { state with id := (nonemptyStr toolCall.id).getD state.id }
  match toolCall.function with
  | none => state
  | some function =>
    let state := { state with name := (nonemptyStr function.name).getD state.name }
    match function.arguments with
    | none => state
    | some arguments => addArguments host state arguments

/-- The block that a merged delta opens, if it is the one that completes the name. -/
def openingBlock (blockIndex : ℕ) (state : PendingChatCompatToolState) :
    Option ProviderContentBlock :=
  if state.lifecycle = .discovered ∧ state.name ≠ "" then
    some (.toolUse
      (if state.id = "" then "toolu_chat_compat_" ++ toString blockIndex else state.id)
      state.name (state.materializedArguments.getD Value.emptyObject))
  else none

def afterOpening (state : PendingChatCompatToolState) : PendingChatCompatToolState :=
  if state.lifecycle = .discovered ∧ state.name ≠ "" then
    { state with lifecycle := .opened, materializedArguments := none }
  else state

def partialArguments (state : PendingChatCompatToolState) : Option String :=
  if state.lifecycle = .opened ∧ state.pendingArguments ≠ [] then
    some (String.ofList state.pendingArguments)
  else none

def afterPartial (state : PendingChatCompatToolState) : PendingChatCompatToolState :=
  if state.lifecycle = .opened ∧ state.pendingArguments ≠ [] then
    { state with pendingArguments := [] }
  else state

namespace RuntimeEnvelopeNormalizer

variable (ingress : Ingress)

def modifyIngress (f : ProtocolIngressState → ProtocolIngressState) : Emit Unit :=
  modify fun s => { s with protocolIngress := f s.protocolIngress }

/-- The envelope that starts the pulse, when it has not been started; the caller emits it. -/
def ensureProtocolIngressTurnStarted : Emit (List RuntimeEnvelope) := do
  let s ← read
  if s.protocolIngress.turnStarted then pure []
  else do
    let envelope ← startPulse ingress.toHost 1 none
    modifyIngress fun p => { p with turnStarted := true }
    pure [envelope]

/-! ### Blocks -/

/-- The loop of `emit_normalised_provider_chunks`, with what it does at a tagged tool call. -/
def emitChunksWith (tagged : String → Value → Emit Unit) (index : ℕ)
    (chunks : List NormalisedChunk) : Emit Unit :=
  forEach chunks fun chunk =>
    match chunk with
    | .text text =>
      normalizeUiUpdate ingress.toHost (.streamBlockDelta index (String.ofList text)) none
    | .taggedToolCall name input => tagged name input

/-- `apply_normalised_provider_text`, for a given `emit_normalised_provider_chunks`. -/
def applyNormalisedProviderTextWith (emitChunks : ℕ → List NormalisedChunk → Emit Unit)
    (index : ℕ) (delta : String) : Emit Unit := do
  let s ← read
  let normaliser := (find? index s.protocolIngress.taggedTextNormalisers).getD {}
  match normaliser.normalise ingress.codec delta.toList with
  | none => crash
  | some (chunks, normaliser') => do
    modifyIngress fun p => { p with
      taggedTextNormalisers := insertSorted index normaliser' p.taggedTextNormalisers }
    emitChunks index chunks

def openProviderStreamBlockWith (emitChunks : ℕ → List NormalisedChunk → Emit Unit)
    (index : ℕ) (contentBlock : ProviderContentBlock) : Emit Unit :=
  match providerStreamBlock contentBlock with
  | none => pure ()
  | some (block, initialDelta) => do
    emitAll (← ensureProtocolIngressTurnStarted ingress)
    modifyIngress fun p => { p with openBlocks := insertElem index p.openBlocks }
    onlyIf (needsTextNormaliser contentBlock) (modifyIngress fun p => { p with
      taggedTextNormalisers := insertSorted index
        ((find? index p.taggedTextNormalisers).getD {}) p.taggedTextNormalisers })
    normalizeUiUpdate ingress.toHost (.streamBlockStart index block) none
    forSome (nonemptyStr initialDelta) fun delta =>
      if needsTextNormaliser contentBlock then
        applyNormalisedProviderTextWith ingress emitChunks index delta
      else normalizeUiUpdate ingress.toHost (.streamBlockDelta index delta) none

def closeProviderStreamBlockWith (emitChunks : ℕ → List NormalisedChunk → Emit Unit)
    (index : ℕ) : Emit Unit := do
  let s ← read
  if index ∈ s.protocolIngress.openBlocks then do
    modifyIngress fun p => { p with
      openBlocks := p.openBlocks.filter (· ≠ index)
      taggedTextNormalisers := erase index p.taggedTextNormalisers }
    forSome (find? index s.protocolIngress.taggedTextNormalisers) fun normaliser =>
      emitChunks index normaliser.finish
    normalizeUiUpdate ingress.toHost (.streamBlockComplete index) none
  else pure ()

def emitTaggedToolCallFromTextWith (emitChunks : ℕ → List NormalisedChunk → Emit Unit)
    (name : String) (input : Value) : Emit Unit := do
  let s ← read
  if s.protocolIngress.hasNativeToolCalls then pure ()
  else do
    let index := s.protocolIngress.nextTaggedToolBlockIndex
    modifyIngress fun p => { p with
      nextTaggedToolBlockIndex := saturatingSucc p.nextTaggedToolBlockIndex }
    openProviderStreamBlockWith ingress emitChunks index
      (.toolUse ("toolu_tagged_" ++ toString index) name input)
    closeProviderStreamBlockWith ingress emitChunks index

/-- `emit_normalised_provider_chunks`, cut off at a depth of recursion. -/
def emitNormalisedProviderChunksAt : ℕ → ℕ → List NormalisedChunk → Emit Unit
  | 0 => emitChunksWith ingress fun _ _ => crash
  | depth + 1 => emitChunksWith ingress
      (emitTaggedToolCallFromTextWith ingress (emitNormalisedProviderChunksAt depth))

def emitNormalisedProviderChunks : ℕ → List NormalisedChunk → Emit Unit :=
  emitNormalisedProviderChunksAt ingress 1

def applyNormalisedProviderText : ℕ → String → Emit Unit :=
  applyNormalisedProviderTextWith ingress (emitNormalisedProviderChunks ingress)

def openProviderStreamBlock : ℕ → ProviderContentBlock → Emit Unit :=
  openProviderStreamBlockWith ingress (emitNormalisedProviderChunks ingress)

def closeProviderStreamBlock : ℕ → Emit Unit :=
  closeProviderStreamBlockWith ingress (emitNormalisedProviderChunks ingress)

def emitTaggedToolCallFromText : String → Value → Emit Unit :=
  emitTaggedToolCallFromTextWith ingress (emitNormalisedProviderChunks ingress)

/-- A text delta for a block that is not open opens it. -/
def ensureBlockOpen (index : ℕ) : Emit Unit := do
  let s ← read
  if index ∈ s.protocolIngress.openBlocks then pure ()
  else do
    modifyIngress fun p => { p with openBlocks := insertElem index p.openBlocks }
    normalizeUiUpdate ingress.toHost (.streamBlockStart index (.thinking "" false)) none

def applyProviderStreamDelta (index : ℕ) (blockDelta : ProviderBlockDelta) : Emit Unit :=
  match blockDelta with
  | .text delta =>
    if delta = "" then pure ()
    else do
      emitAll (← ensureProtocolIngressTurnStarted ingress)
      ensureBlockOpen ingress index
      applyNormalisedProviderText ingress index delta
  | .toolArguments delta =>
    if delta = "" then pure ()
    else do
      emitAll (← ensureProtocolIngressTurnStarted ingress)
      normalizeUiUpdate ingress.toHost (.streamBlockDelta index delta) none

/-! ### Metadata, usage and errors -/

def emitProviderMetadata (metadata : StreamChunkMetadata) : Emit Unit := do
  emitAll (← ensureProtocolIngressTurnStarted ingress)
  normalizeUiUpdate ingress.toHost (.serverMetadata metadata) none

/-- The tokens are counted before the pulse is started, and starting it resets them. -/
def emitProviderUsage (usage : ApiUsage) : Emit Unit := do
  modifyIngress fun p => { p with turnTokens := accumulateTurnTokens p.turnTokens usage }
  emitAll (← ensureProtocolIngressTurnStarted ingress)
  forSome (tokenUsageFromApiUsage usage) fun usage => do
    emit (← emitSignal ingress.toHost (.usageUpdated usage))

/-- `emit_protocol_ingress_error`: the envelope that starts the pulse is dropped. -/
def emitProtocolIngressError (code message : String) : Emit RuntimeEnvelope := do
  let _ ← ensureProtocolIngressTurnStarted ingress
  emitSignal ingress.toHost (.error code message true)

def emitErrorSignal (code message : String) : Emit Unit := do
  emit (← emitSignal ingress.toHost (.error code message true))

/-- What the error at a `content_block` that cannot be decoded says of it. -/
def contentBlockError (contentBlock : Value) (err : String) : String :=
  let blockType := ((contentBlock.get? "type").bind Value.asStr).getD "<missing>"
  "type=" ++ blockType ++ ": " ++ err

/-- The log line cuts a payload of more than 512 bytes at byte 512, and panics inside a
character. -/
def logPayloadPanics (contentBlock : Value) : Bool :=
  let raw := ingress.codec.toString contentBlock
  decide (512 < byteLen raw) && !isCharBoundary 512 raw

/-! ### Chat-compat tool calls -/

def applyChatCompatToolDelta (toolCall : ChatCompatToolCallDelta) : Emit Unit := do
  let s ← read
  if s.protocolIngress.chatCompatStreamTerminated then pure ()
  else do
    let blockIndex := min (toolCall.index.getD 0) maxToolCallIndex + 1
    let state := (find? blockIndex s.protocolIngress.chatCompatToolLifecycles).getD {}
    if state.lifecycle = .closed then pure ()
    else do
      let merged := mergeToolDelta ingress.toHost toolCall state
      let opened := afterOpening merged
      modifyIngress fun p => { p with
        chatCompatToolLifecycles :=
          insertSorted blockIndex (afterPartial opened) p.chatCompatToolLifecycles }
      forSome (openingBlock blockIndex merged) fun contentBlock => do
        modifyIngress fun p => { p with hasNativeToolCalls := true }
        openProviderStreamBlock ingress blockIndex contentBlock
      forSome (partialArguments opened) fun json =>
        applyProviderStreamDelta ingress blockIndex (.toolArguments json)

def closeLifecycle (state : PendingChatCompatToolState) : PendingChatCompatToolState :=
  { state with lifecycle := .closed }

def closeChatCompatToolBlocks : Emit Unit := do
  let s ← read
  let toClose := (s.protocolIngress.chatCompatToolLifecycles.filter
    fun entry => entry.2.lifecycle = .opened).map Prod.fst
  modifyIngress fun p => { p with
    chatCompatToolLifecycles :=
      p.chatCompatToolLifecycles.map fun (index, state) => (index, closeLifecycle state) }
  forEach toClose (closeProviderStreamBlock ingress)

/-! ### Items and chunks -/

def normalizeProviderStreamItem (item : ProviderStreamItem) : Emit Unit :=
  match item with
  | .messageStart usage metadata => do
    forSome (messageStartMetadata metadata) (emitProviderMetadata ingress)
    forSome usage (emitProviderUsage ingress)
  | .contentBlockStart index contentBlock =>
    match ingress.contentBlock contentBlock with
    | .ok contentBlock => openProviderStreamBlock ingress index contentBlock
    | .error err =>
      if logPayloadPanics ingress contentBlock then crash
      else emitErrorSignal ingress "provider_content_block_start_decode"
        ("failed to decode provider content_block_start item at index " ++ toString index ++ ": " ++
          contentBlockError contentBlock err)
  | .contentBlockDelta index delta =>
    forSome (providerBlockDelta delta) (applyProviderStreamDelta ingress index)
  | .contentBlockStop index => closeProviderStreamBlock ingress index
  | .messageDelta metadata usage => do
    forSome metadata (emitProviderMetadata ingress)
    forSome usage (emitProviderUsage ingress)
  | .messageStop | .ping | .unknown => pure ()
  | .error errorType message => emitErrorSignal ingress errorType message

def emitChatCompatMessageStart (chunk : ChatCompatChunk) : Emit Unit := do
  let s ← read
  if s.protocolIngress.chatCompatMessageStarted then pure ()
  else do
    let role := chunk.choices.findSome? fun choice => choice.delta.role
    let metadata := chatCompatMetadata chunk none none
    if chunk.id.isSome || chunk.model.isSome || role.isSome || metadata.isSome then do
      modifyIngress fun p => { p with
        chatCompatMessageStarted := true
        chatCompatStreamTerminated :=
          if role.isSome then false else p.chatCompatStreamTerminated }
      forSome (messageStartMetadata metadata) (emitProviderMetadata ingress)
    else pure ()

def emitChunkUsage (chunk : ChatCompatChunk) : Emit Unit :=
  forSome chunk.usage fun usage => do
    forSome (chatCompatMetadata chunk none none) (emitProviderMetadata ingress)
    emitProviderUsage ingress
      { usage with serviceTier := usage.serviceTier.or chunk.serviceTier }

def normalizeChatCompatChoice (chunk : ChatCompatChunk) (choice : ChatCompatChoice) :
    Emit Unit := do
  forSome choice.delta.content fun content => applyProviderStreamDelta ingress 0 (.text content)
  forSome choice.delta.reasoningContent fun reasoning =>
    applyProviderStreamDelta ingress 0 (.text reasoning)
  forEach (choice.delta.toolCalls.getD []) (applyChatCompatToolDelta ingress)
  forSome (chatCompatMetadata chunk choice.index choice.logprobs) fun metadata =>
    onlyIf (choice.delta.refusal.isSome || choice.finishReason.isSome || choice.logprobs.isSome ||
        metadata.promptProgress.isSome || metadata.timings.isSome)
      (emitProviderMetadata ingress metadata)
  onlyIf choice.finishReason.isSome (closeChatCompatToolBlocks ingress)

def normalizeChatCompatChunk (chunk : ChatCompatChunk) : Emit Unit := do
  emitChatCompatMessageStart ingress chunk
  emitChunkUsage ingress chunk
  forEach chunk.choices (normalizeChatCompatChoice ingress chunk)

def normalizeChatCompatPayload (payload : ChatCompatPayload) : Emit Unit :=
  match payload with
  | .done => do
    closeChatCompatToolBlocks ingress
    modifyIngress fun p => { p with
      chatCompatMessageStarted := false
      chatCompatStreamTerminated := true
      chatCompatToolLifecycles := [] }
  | .chunk chunk => normalizeChatCompatChunk ingress chunk

/-! ### The end of the turn -/

def finishProtocolIngressTurn : Emit Unit := do
  let s ← read
  if s.protocolIngress.turnStarted then do
    modifyIngress fun p => { p with taggedTextNormalisers := [] }
    forEach s.protocolIngress.taggedTextNormalisers fun (index, normaliser) =>
      emitNormalisedProviderChunks ingress index normaliser.finish
    let s ← read
    modifyIngress fun p => { p with openBlocks := [] }
    forEach s.protocolIngress.openBlocks fun index =>
      normalizeUiUpdate ingress.toHost (.streamBlockComplete index) none
    let s ← read
    modifyIngress fun p => { p with turnTokens := {} }
    normalizeUiUpdate ingress.toHost .pulseComplete
      (some { usage := tokenUsageFromTurnTokens s.protocolIngress.turnTokens, changedFiles := [] })
    modifyIngress fun _ => {}
  else pure ()

def protocolStreamTerminated (s : RuntimeEnvelopeNormalizer) : Bool :=
  s.protocolIngress.chatCompatStreamTerminated

/-! ### The depth of the recursion -/

/-- The two emitters agree on chunks without tool calls. -/
def AgreeOnText (e e' : ℕ → List NormalisedChunk → Emit Unit) : Prop :=
  ∀ index text, e index (pushTextChunk text) = e' index (pushTextChunk text)

theorem agreeOnText_emitChunksWith (tagged tagged' : String → Value → Emit Unit) :
    AgreeOnText (emitChunksWith ingress tagged) (emitChunksWith ingress tagged') := by
  intro index text
  cases text with
  | nil | cons c text => rfl

/-- A tagged tool call has no text of its own, and what closing its block releases is text. -/
theorem emitTaggedToolCallFromTextWith_congr {e e' : ℕ → List NormalisedChunk → Emit Unit}
    (h : AgreeOnText e e') :
    emitTaggedToolCallFromTextWith ingress e = emitTaggedToolCallFromTextWith ingress e' := by
  have hclose : closeProviderStreamBlockWith ingress e = closeProviderStreamBlockWith ingress e' := by
    funext index
    simp only [closeProviderStreamBlockWith, StreamTextNormaliser.finish, h index]
  have hopen : ∀ index id name input,
      openProviderStreamBlockWith ingress e index (.toolUse id name input) =
        openProviderStreamBlockWith ingress e' index (.toolUse id name input) :=
    fun _ _ _ _ => rfl
  funext name input
  simp only [emitTaggedToolCallFromTextWith, hclose, hopen]

theorem emitNormalisedProviderChunksAt_succ (depth : ℕ) :
    emitNormalisedProviderChunksAt ingress (depth + 1) = emitNormalisedProviderChunks ingress := by
  have hagree : AgreeOnText (emitNormalisedProviderChunksAt ingress depth)
      (emitNormalisedProviderChunksAt ingress 0) := by
    cases depth <;> exact agreeOnText_emitChunksWith ingress _ _
  simp only [emitNormalisedProviderChunks, emitNormalisedProviderChunksAt,
    emitTaggedToolCallFromTextWith_congr ingress hagree]

/-- The recursion of the source: the chunks of a text, the tool calls in it handled by the same
function. -/
theorem emitNormalisedProviderChunks_eq :
    emitNormalisedProviderChunks ingress = emitChunksWith ingress (emitTaggedToolCallFromText ingress) := by
  rw [← emitNormalisedProviderChunksAt_succ ingress 1]
  rfl

end RuntimeEnvelopeNormalizer

end Vexcoder.Handoff

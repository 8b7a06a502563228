import Vexcoder.Handoff.ProtocolIngress

/-!
# The operations of protocol ingress

Every stream item and every chunk is a fixed list of operations on the normaliser, whatever state
they meet (`normalizeProviderStreamItem_eq`, `normalizeChatCompatPayload_eq`).
-/

namespace Vexcoder.Handoff

open Base Lib Lib.Assoc Lib.Emitter Vexcoder.Runtime
open Vexcoder.Stream

variable (ingress : Ingress)

/-- The steps that the items and chunks of a stream are made of. -/
inductive IngressOp where
  | metadata (metadata : StreamChunkMetadata)
  | usage (usage : ApiUsage)
  | messageStart (chunk : ChatCompatChunk)
  | openBlock (index : ℕ) (contentBlock : ProviderContentBlock)
  | delta (index : ℕ) (blockDelta : ProviderBlockDelta)
  | closeBlock (index : ℕ)
  | toolDelta (toolCall : ChatCompatToolCallDelta)
  | closeToolBlocks
  | terminate
  | errorSignal (code message : String)
  | logPanic

namespace RuntimeEnvelopeNormalizer

def terminateStream : Emit Unit :=
  modifyIngress fun p => { p with
    chatCompatMessageStarted := false
    chatCompatStreamTerminated := true
    chatCompatToolLifecycles := [] }

def runOp : IngressOp → Emit Unit
  | .metadata metadata => emitProviderMetadata ingress metadata
  | .usage usage => emitProviderUsage ingress usage
  | .messageStart chunk => emitChatCompatMessageStart ingress chunk
  | .openBlock index contentBlock => openProviderStreamBlock ingress index contentBlock
  | .delta index blockDelta => applyProviderStreamDelta ingress index blockDelta
  | .closeBlock index => closeProviderStreamBlock ingress index
  | .toolDelta toolCall => applyChatCompatToolDelta ingress toolCall
  | .closeToolBlocks => closeChatCompatToolBlocks ingress
  | .terminate => terminateStream
  | .errorSignal code message => emitErrorSignal ingress code message
  | .logPanic => crash

def itemOps : ProviderStreamItem → List IngressOp
  | .messageStart usage metadata =>
    ((messageStartMetadata metadata).toList.map .metadata) ++ (usage.toList.map .usage)
  | .contentBlockStart index contentBlock =>
    match ingress.contentBlock contentBlock with
    | .ok contentBlock => [.openBlock index contentBlock]
    | .error err =>
      if logPayloadPanics ingress contentBlock then [.logPanic]
      else [.errorSignal "provider_content_block_start_decode"
        ("failed to decode provider content_block_start item at index " ++ toString index ++ ": " ++
          contentBlockError contentBlock err)]
  | .contentBlockDelta index delta => (providerBlockDelta delta).toList.map (.delta index)
  | .contentBlockStop index => [.closeBlock index]
  | .messageDelta metadata usage => (metadata.toList.map .metadata) ++ (usage.toList.map .usage)
  | .messageStop | .ping | .unknown => []
  | .error errorType message => [.errorSignal errorType message]

def choiceOps (chunk : ChatCompatChunk) (choice : ChatCompatChoice) : List IngressOp :=
  (choice.delta.content.toList.map fun content => .delta 0 (.text content)) ++
  (choice.delta.reasoningContent.toList.map fun reasoning => .delta 0 (.text reasoning)) ++
  ((choice.delta.toolCalls.getD []).map .toolDelta) ++
  ((chatCompatMetadata chunk choice.index choice.logprobs).filter fun metadata =>
    choice.delta.refusal.isSome || choice.finishReason.isSome || choice.logprobs.isSome ||
      metadata.promptProgress.isSome || metadata.timings.isSome).toList.map .metadata ++
  (if choice.finishReason.isSome then [.closeToolBlocks] else [])

def usageOps (chunk : ChatCompatChunk) : List IngressOp :=
  match chunk.usage with
  | none => []
  | some usage =>
    (chatCompatMetadata chunk none none).toList.map .metadata ++
      [.usage { usage with serviceTier := usage.serviceTier.or chunk.serviceTier }]

def payloadOps : ChatCompatPayload → List IngressOp
  | .done => [.closeToolBlocks, .terminate]
  | .chunk chunk => .messageStart chunk :: usageOps chunk ++ chunk.choices.flatMap (choiceOps chunk)

theorem forEach_toList {β : Type} (o : Option β) (g : β → IngressOp) (f : β → Emit Unit)
    (h : ∀ b, runOp ingress (g b) = f b) :
    forEach (o.toList.map g) (runOp ingress) = forSome o f := by
  cases o with
  | none => rfl
  | some b => rw [Option.toList_some, List.map_singleton, forEach_singleton, h]; rfl

theorem normalizeProviderStreamItem_eq (item : ProviderStreamItem) :
    normalizeProviderStreamItem ingress item = forEach (itemOps ingress item) (runOp ingress) := by
  cases item with
  | messageStart usage metadata | messageDelta metadata usage =>
    simp only [itemOps, forEach_append]
    rw [forEach_toList ingress _ _ _ fun _ => rfl, forEach_toList ingress _ _ _ fun _ => rfl]
    rfl
  | contentBlockStart index contentBlock =>
    simp only [normalizeProviderStreamItem, itemOps]
    cases ingress.contentBlock contentBlock with
    | ok block => rw [forEach_singleton]; rfl
    | error err =>
      simp only
      split
      all_goals rfl
  | contentBlockDelta index delta =>
    rw [itemOps, forEach_toList ingress _ _ _ fun _ => rfl]
    rfl
  | contentBlockStop index | error errorType message => rw [itemOps, forEach_singleton]; rfl
  | messageStop | ping | unknown => rfl

theorem normalizeChatCompatChoice_eq (chunk : ChatCompatChunk) (choice : ChatCompatChoice) :
    normalizeChatCompatChoice ingress chunk choice = forEach (choiceOps chunk choice) (runOp ingress) := by
  have htools : forEach ((choice.delta.toolCalls.getD []).map .toolDelta) (runOp ingress) =
      forEach (choice.delta.toolCalls.getD []) (applyChatCompatToolDelta ingress) := by
    induction choice.delta.toolCalls.getD [] with
    | nil => rfl
    | cons t l ih => simp only [List.map_cons, forEach, ih]; rfl
  have hmeta : ∀ (c : StreamChunkMetadata → Bool) (o : Option StreamChunkMetadata),
      forEach ((o.filter c).toList.map .metadata) (runOp ingress) =
        forSome o fun metadata => onlyIf (c metadata) (emitProviderMetadata ingress metadata) := by
    intro c o
    cases o with
    | none => rfl
    | some metadata =>
      cases hc : c metadata with
      | true => simp only [Option.filter, hc, forSome]; exact forEach_singleton _ _
      | false => simp only [Option.filter, hc, forSome]; rfl
  have hclose : forEach (if choice.finishReason.isSome then [IngressOp.closeToolBlocks] else [])
      (runOp ingress) = onlyIf choice.finishReason.isSome (closeChatCompatToolBlocks ingress) := by
    cases choice.finishReason with
    | none => rfl
    | some reason => exact forEach_singleton _ _
  simp only [choiceOps, forEach_append, htools, hmeta, hclose, bind_assoc]
  rw [forEach_toList ingress _ _ _ fun _ => rfl, forEach_toList ingress _ _ _ fun _ => rfl]
  rfl

theorem normalizeChatCompatPayload_eq (payload : ChatCompatPayload) :
    normalizeChatCompatPayload ingress payload = forEach (payloadOps payload) (runOp ingress) := by
  cases payload with
  | done =>
    show _ = (runOp ingress .closeToolBlocks >>= fun _ => runOp ingress .terminate >>= fun _ => pure ())
    rfl
  | chunk chunk =>
    have husage : forEach (usageOps chunk) (runOp ingress) = emitChunkUsage ingress chunk := by
      unfold usageOps emitChunkUsage
      cases chunk.usage with
      | none => rfl
      | some usage =>
        simp only [forEach_append, forEach_singleton]
        rw [forEach_toList ingress _ _ _ fun _ => rfl]
        rfl
    have hchoices : forEach (chunk.choices.flatMap (choiceOps chunk)) (runOp ingress) =
        forEach chunk.choices (normalizeChatCompatChoice ingress chunk) := by
      rw [forEach_flatMap]
      congr 1
      funext choice
      exact (normalizeChatCompatChoice_eq ingress chunk choice).symm
    simp only [payloadOps, List.cons_append, forEach, forEach_append, husage, hchoices]
    rfl

end RuntimeEnvelopeNormalizer

end Vexcoder.Handoff

import Vexcoder.Handoff.Blocks
import Vexcoder.Lib.Runs
import Vexcoder.Stream.ParserTotality

/-!
# The start of a provider block

When `normalize_provider_stream_item` returns at a `content_block_start`.  Nothing it sends can panic;
what can is the log line about a payload that does not decode, which is cut at byte 512, and the text
normaliser, at a tagged call without a `>`.
-/

namespace Vexcoder.Handoff

open Base Lib Lib.Assoc Lib.Emitter Vexcoder.Runtime
open Vexcoder.Stream

/-! ### When it returns -/

def blockText (contentBlock : ProviderContentBlock) : String :=
  ((providerStreamBlock contentBlock).bind Prod.snd).getD ""

/-- What the text normaliser of the block holds when the text of its start comes. -/
def ProtocolIngressState.pendingAt (p : ProtocolIngressState) (index : ℕ) : List Char :=
  ((find? index p.atPulse.taggedTextNormalisers).getD {}).pending

variable (ingress : Ingress) (host : Host)

def rawPayload (contentBlock : Value) : List Char := ingress.codec.toString contentBlock

/-- The condition: the payload decodes, and each call that its text closes has a `>`; or it does not
decode, and is short or has a character that begins at byte 512. -/
def StartDecodes (p : ProtocolIngressState) (index : ℕ) (contentBlock : Value) : Prop :=
  match ingress.contentBlock contentBlock with
  | .ok contentBlock => AllNamed (closedCalls (p.pendingAt index) [(blockText contentBlock).toList])
  | .error _ =>
    byteLen (rawPayload ingress contentBlock) ≤ 512 ∨
      isCharBoundary 512 (rawPayload ingress contentBlock) = true

/-- A payload that is cut for the log is cut at a character boundary. -/
def CutAtBoundary (contentBlock : Value) : Prop :=
  ∀ err, ingress.contentBlock contentBlock = .error err →
    512 < byteLen (rawPayload ingress contentBlock) →
      isCharBoundary 512 (rawPayload ingress contentBlock) = true

namespace RuntimeEnvelopeNormalizer

/-! ### What is sent does not panic -/

/-- `x` runs from every state, and leaves the ingress state as it is. -/
def Sends {α : Type} (x : Emit α) : Prop :=
  ∀ s, ∃ a out s', x s = some (a, out, s') ∧ s'.protocolIngress = s.protocolIngress

section Sends

variable {α β : Type}

theorem Sends.pure (a : α) : Sends (pure a : Emit α) := fun s => ⟨a, [], s, rfl, rfl⟩

theorem Sends.read : Sends (read : Emit RuntimeEnvelopeNormalizer) := fun s => ⟨s, [], s, rfl, rfl⟩

theorem Sends.modify {f : RuntimeEnvelopeNormalizer → RuntimeEnvelopeNormalizer}
    (h : ∀ s, (f s).protocolIngress = s.protocolIngress) : Sends (modify f : Emit Unit) :=
  fun s => ⟨(), [], f s, rfl, h s⟩

theorem Sends.bind {x : Emit α} {f : α → Emit β} (hx : Sends x) (hf : ∀ a, Sends (f a)) :
    Sends (x >>= f) := by
  intro s
  obtain ⟨a, out, s', hrun, hs'⟩ := hx s
  obtain ⟨b, out', s'', hrun', hs''⟩ := hf a s'
  exact ⟨b, out ++ out', s'', by rw [bind_of_some hrun, hrun', prepend_some], hs''.trans hs'⟩

theorem Sends.emit {p : RuntimeSignal → Prop} {x : Emit RuntimeEnvelope} (hx : Creates p x) :
    Sends (do emit (← x) : Emit Unit) := by
  intro s
  obtain ⟨e, s', hrun, -, -, hstate, -⟩ := emit_run_of_creates hx s
  exact ⟨(), [e], s', hrun, hstate⟩

theorem Sends.total {x : Emit α} (h : Sends x) : Total x := by
  intro s
  obtain ⟨a, out, s', hrun, -⟩ := h s
  exact ⟨(a, out, s'), hrun⟩

end Sends

theorem sends_envelope (signal : RuntimeSignal) (source : Option RuntimeEnvelopeSource) :
    Sends (do emit (← nextEnvelopeWithSource host signal none none source) : Emit Unit) :=
  Sends.emit (creates_nextEnvelopeWithSource host signal none none source)

theorem sends_closeOpenFinalTextBlock : Sends (closeOpenFinalTextBlock host) := by
  refine Sends.bind Sends.read fun s => ?_
  cases s.openFinalTextBlock with
  | none => exact Sends.pure ()
  | some index => exact Sends.bind (Sends.modify fun _ => rfl) fun _ => sends_envelope host _ _

theorem sends_normalizeStreamBlock (block : StreamBlock) : Sends (normalizeStreamBlock host block) := by
  cases block with
  | toolCall id name input status => exact Sends.emit (creates_recordToolCall host id name input)
  | toolResult toolCallId output isError =>
    exact Sends.emit (creates_recordToolResult host toolCallId output isError)
  | thinking content collapsed | finalText content => exact Sends.pure ()

theorem sends_blockStart (index : ℕ) (block : StreamBlock) :
    Sends (normalizeUiUpdate host (.streamBlockStart index block) none) := by
  refine Sends.bind (sends_closeOpenFinalTextBlock host) fun _ => ?_
  refine Sends.bind (Sends.modify fun _ => rfl) fun _ => ?_
  rw [← bind_assoc]
  refine Sends.bind (sends_envelope host _ _) fun _ => ?_
  refine Sends.bind (sends_normalizeStreamBlock host block) fun _ => ?_
  cases block with
  | toolCall id name input status => exact Sends.modify fun _ => rfl
  | _ => exact Sends.pure ()

theorem sends_blockDelta (index : ℕ) (delta : String) :
    Sends (normalizeUiUpdate host (.streamBlockDelta index delta) none) := by
  refine Sends.bind Sends.read fun s => ?_
  rw [← bind_assoc]
  refine Sends.bind (sends_envelope host _ _) fun _ => ?_
  cases find? index s.streamingToolCallBlocks with
  | none => exact Sends.pure ()
  | some runtimeId => exact Sends.emit (creates_recordToolCallArgumentsDelta host runtimeId delta)

theorem sends_blockComplete (index : ℕ) : Sends (normalizeUiUpdate host (.streamBlockComplete index) none) :=
  Sends.bind Sends.read fun _ => Sends.bind (Sends.modify fun _ => rfl) fun _ =>
    sends_envelope host _ _

theorem sends_emitErrorSignal (code message : String) : Sends (emitErrorSignal ingress code message) :=
  sends_envelope ingress.toHost _ none

/-! ### Blocks and tagged calls -/

theorem ensure_run (s : RuntimeEnvelopeNormalizer) :
    ∃ envelopes s', ensureProtocolIngressTurnStarted ingress s = some (envelopes, [], s') ∧
      s'.protocolIngress = s.protocolIngress.atPulse := by
  cases hstarted : s.protocolIngress.turnStarted with
  | true =>
    refine ⟨[], s, ?_, ?_⟩
    · simp only [ensureProtocolIngressTurnStarted, bind_of_some (read_run s), prepend_nil, hstarted,
        if_true, pure_run]
    · rw [ProtocolIngressState.atPulse, if_pos hstarted]
  | false =>
    simp only [ensureProtocolIngressTurnStarted, bind_of_some (read_run s), prepend_nil, hstarted]
    refine ⟨_, _, rfl, ?_⟩
    rw [ProtocolIngressState.atPulse, if_neg (by rw [hstarted]; decide)]

theorem total_ensure : Total (ensureProtocolIngressTurnStarted ingress) := by
  intro s
  obtain ⟨envelopes, s', hrun, -⟩ := ensure_run ingress s
  exact ⟨(envelopes, [], s'), hrun⟩

theorem total_emitChunksWith {tagged : String → Value → Emit Unit}
    (htagged : ∀ name input, Total (tagged name input)) (index : ℕ) (chunks : List NormalisedChunk) :
    Total (emitChunksWith ingress tagged index chunks) := by
  refine closed_total.forEach fun chunk => ?_
  cases chunk with
  | text text => exact (sends_blockDelta ingress.toHost index _).total
  | taggedToolCall name input => exact htagged name input

theorem total_pushedText {tagged : String → Value → Emit Unit} (index : ℕ) (text : List Char) :
    Total (emitChunksWith ingress tagged index (pushTextChunk text)) := by
  cases text with
  | nil => exact Total.pure ()
  | cons c text =>
    exact Total.bind (sends_blockDelta ingress.toHost index _).total fun _ => Total.pure ()

section Calls

variable {emitChunks : ℕ → List NormalisedChunk → Emit Unit}

theorem total_closeProviderStreamBlockWith
    (h : ∀ index text, Total (emitChunks index (pushTextChunk text))) (index : ℕ) :
    Total (closeProviderStreamBlockWith ingress emitChunks index) := by
  refine Total.bind closed_total.read fun s => ?_
  split
  · refine Total.bind (Total.modify _) fun _ => ?_
    refine Total.bind (closed_total.forSome fun normaliser => h index _) fun _ => ?_
    exact (sends_blockComplete ingress.toHost index).total
  · exact Total.pure ()

theorem total_openTool (index : ℕ) (id name : String) (input : Value) :
    Total (openProviderStreamBlockWith ingress emitChunks index (.toolUse id name input)) := by
  refine Total.bind (total_ensure ingress) fun envelopes => Total.bind (fun s => ⟨_, rfl⟩) fun _ => ?_
  refine Total.bind (Total.modify _) fun _ => Total.bind (closed_total.onlyIf (Total.modify _)) fun _ => ?_
  exact Total.bind (sends_blockStart ingress.toHost index _).total fun _ => Total.pure ()

theorem total_emitTaggedToolCallFromTextWith
    (h : ∀ index text, Total (emitChunks index (pushTextChunk text))) (name : String) (input : Value) :
    Total (emitTaggedToolCallFromTextWith ingress emitChunks name input) := by
  refine Total.bind closed_total.read fun s => ?_
  split
  · exact Total.pure ()
  · refine Total.bind (Total.modify _) fun _ => ?_
    refine Total.bind (total_openTool ingress _ _ _ _) fun _ => ?_
    exact total_closeProviderStreamBlockWith ingress h _

end Calls

theorem total_emitNormalisedProviderChunks (index : ℕ) (chunks : List NormalisedChunk) :
    Total (emitNormalisedProviderChunks ingress index chunks) := by
  refine total_emitChunksWith ingress (fun name input => ?_) index chunks
  exact total_emitTaggedToolCallFromTextWith ingress (total_pushedText ingress) name input

/-! ### The start of a block -/

/-- The text normaliser goes through the text exactly when each call that it closes has a `>`. -/
theorem normalise_isSome_iff (codec : JsonCodec) (n : StreamTextNormaliser) (text : List Char) :
    (n.normalise codec text).isSome = true ↔ AllNamed (closedCalls n.pending [text]) := by
  rw [← feed_isSome_iff codec n [text], StreamTextNormaliser.feed]
  cases n.normalise codec text with
  | none => rfl
  | some result => exact ⟨fun _ => rfl, fun _ => rfl⟩

theorem applyNormalisedProviderText_isSome_iff (index : ℕ) (delta : String) (s : RuntimeEnvelopeNormalizer) :
    (applyNormalisedProviderText ingress index delta s).isSome = true ↔
      AllNamed (closedCalls
        ((find? index s.protocolIngress.taggedTextNormalisers).getD {}).pending [delta.toList]) := by
  rw [← normalise_isSome_iff ingress.codec]
  unfold applyNormalisedProviderText applyNormalisedProviderTextWith
  rw [bind_of_some (read_run s)]
  cases ((find? index s.protocolIngress.taggedTextNormalisers).getD {}).normalise ingress.codec
      delta.toList with
  | none => rfl
  | some result =>
    obtain ⟨chunks, normaliser'⟩ := result
    obtain ⟨final, hfinal⟩ := total_emitNormalisedProviderChunks ingress index chunks _
    refine ⟨fun _ => rfl, fun _ => ?_⟩
    dsimp only
    rw [modifyIngress, bind_of_some (modify_run _ s), hfinal]
    rfl

/-- A block of text: whether its start goes through is decided by its text normaliser. -/
theorem openTextBlock_isSome_iff {contentBlock : ProviderContentBlock} {text : String}
    (hblock : providerStreamBlock contentBlock = some (.thinking "" false, some text))
    (hneeds : needsTextNormaliser contentBlock = true) (index : ℕ) (s : RuntimeEnvelopeNormalizer) :
    (openProviderStreamBlock ingress index contentBlock s).isSome = true ↔
      AllNamed (closedCalls (s.protocolIngress.pendingAt index) [text.toList]) := by
  obtain ⟨envelopes, s₁, hensure, hpulse⟩ := ensure_run ingress s
  obtain ⟨⟨⟩, out, s₂, hstart, hkept⟩ := sends_blockStart ingress.toHost index (.thinking "" false)
    { s₁ with protocolIngress := { s₁.protocolIngress with
        openBlocks := insertElem index s₁.protocolIngress.openBlocks
        taggedTextNormalisers := insertSorted index
          ((find? index s₁.protocolIngress.taggedTextNormalisers).getD {})
          s₁.protocolIngress.taggedTextNormalisers } }
  have hpending : ((find? index s₂.protocolIngress.taggedTextNormalisers).getD {}).pending =
      s.protocolIngress.pendingAt index := by
    rw [hkept, ProtocolIngressState.pendingAt, ← hpulse]
    simp only [find?_insertSorted, if_true, Option.getD_some]
  have hrun : openProviderStreamBlock ingress index contentBlock s =
      prepend (envelopes ++ out) ((forSome (nonemptyStr (some text))
        (applyNormalisedProviderText ingress index)) s₂) := by
    unfold openProviderStreamBlock openProviderStreamBlockWith
    simp only [hblock, hneeds, if_true]
    rw [bind_of_some hensure, prepend_nil, bind_of_some (emitAll_run envelopes s₁), modifyIngress,
      bind_of_some (modify_run _ s₁), prepend_nil, onlyIf, if_pos rfl, modifyIngress,
      bind_of_some (modify_run _ _), prepend_nil, bind_of_some hstart, prepend_prepend]
    rfl
  have hisSome : (openProviderStreamBlock ingress index contentBlock s).isSome =
      ((forSome (nonemptyStr (some text)) (applyNormalisedProviderText ingress index)) s₂).isSome := by
    rw [hrun]
    cases (forSome (nonemptyStr (some text)) (applyNormalisedProviderText ingress index)) s₂ with
    | none | some result => rfl
  rw [hisSome, ← hpending]
  by_cases hempty : text = ""
  · subst hempty
    exact ⟨fun _ => List.forall_mem_nil _, fun _ => rfl⟩
  · rw [show nonemptyStr (some text) = some text by
      rw [nonemptyStr, Option.filter_some, if_pos (decide_eq_true hempty)]]
    exact applyNormalisedProviderText_isSome_iff ingress index text s₂

theorem total_openProviderStreamBlock {contentBlock : ProviderContentBlock}
    (h : (providerStreamBlock contentBlock).bind Prod.snd = none) (index : ℕ) :
    Total (openProviderStreamBlock ingress index contentBlock) := by
  cases contentBlock with
  | toolUse id name input | serverToolUse id name input =>
    exact total_openTool ingress index id name input
  | toolResult | webSearchToolResult => exact Total.pure ()
  | _ => cases h

theorem openProviderStreamBlock_isSome_iff (contentBlock : ProviderContentBlock) (index : ℕ)
    (s : RuntimeEnvelopeNormalizer) :
    (openProviderStreamBlock ingress index contentBlock s).isSome = true ↔
      AllNamed (closedCalls (s.protocolIngress.pendingAt index) [(blockText contentBlock).toList]) := by
  have hplain : (providerStreamBlock contentBlock).bind Prod.snd = none →
      ((openProviderStreamBlock ingress index contentBlock s).isSome = true ↔
        AllNamed (closedCalls (s.protocolIngress.pendingAt index) [(blockText contentBlock).toList])) := by
    intro hnone
    obtain ⟨result, hrun⟩ := total_openProviderStreamBlock ingress hnone index s
    rw [hrun, blockText, hnone]
    exact ⟨nofun, fun _ => rfl⟩
  cases contentBlock with
  | text text | thinking thinking | thinkingData data =>
    exact openTextBlock_isSome_iff ingress rfl rfl index s
  | _ => exact hplain rfl

/-- **The start of a provider block** is worked into envelopes, and its payload cut at a character
boundary, exactly under the condition. -/
theorem content_block_start_returns_iff (s : RuntimeEnvelopeNormalizer) (index : ℕ)
    (contentBlock : Value) :
    ((normalizeProviderStreamItem ingress (.contentBlockStart index contentBlock) s).isSome = true ∧
        CutAtBoundary ingress contentBlock) ↔
      StartDecodes ingress s.protocolIngress index contentBlock := by
  unfold StartDecodes CutAtBoundary
  simp only [normalizeProviderStreamItem]
  cases hdecode : ingress.contentBlock contentBlock with
  | ok block =>
    dsimp only
    rw [openProviderStreamBlock_isSome_iff]
    exact ⟨fun h => h.1, fun h => ⟨h, fun err herr => by cases herr⟩⟩
  | error err =>
    dsimp only
    have hpanics : logPayloadPanics ingress contentBlock = false ↔
        byteLen (rawPayload ingress contentBlock) ≤ 512 ∨
          isCharBoundary 512 (rawPayload ingress contentBlock) = true := by
      rw [logPayloadPanics, rawPayload, Bool.and_eq_false_iff, decide_eq_false_iff_not, Nat.not_lt,
        Bool.not_eq_false']
    rw [← hpanics]
    cases hlog : logPayloadPanics ingress contentBlock with
    | true => exact ⟨(fun h => absurd h.1 Bool.false_ne_true), fun h => absurd h (by decide)⟩
    | false =>
      obtain ⟨a, out, s', hrun, -⟩ := sends_emitErrorSignal ingress
        "provider_content_block_start_decode"
        ("failed to decode provider content_block_start item at index " ++ toString index ++ ": " ++
          contentBlockError contentBlock err) s
      refine ⟨fun _ => rfl, fun _ => ⟨?_, fun _ _ hlong => ?_⟩⟩
      · rw [if_neg (by decide), hrun]
        rfl
      · rcases hpanics.mp hlog with hshort | hboundary
        · omega
        · exact hboundary

/-! ### A payload whose byte 512 is inside a character -/

def unknownBlock : Value :=
  .object [("data", .string (String.ofList (List.replicate 300 'é'))),
    ("type", .string "redacted_thinking")]

/-- The text of `unknownBlock`. -/
def unknownPayload : List Char :=
  "\x7b\"data\":\"".toList ++ List.replicate 300 'é' ++ "\",\"type\":\"redacted_thinking\"\x7d".toList

/-- A library that writes `unknownBlock` and reads none of it as a block. -/
def unknownIngress : Ingress where
  now _ := 0
  nanosecond _ := 0
  timestampString _ := "1970-01-01T00:00:00.000Z"
  codec := {
    fromStr := fun _ => none
    toString := fun value => if value = unknownBlock then unknownPayload else []
    parseF64 := fun _ => none }
  contentBlock _ := .error ("unknown variant, expected one of text, tool_use, tool_result, thinking, " ++
    "thinking_data, server_tool_use, web_search_tool_result")

/-- The log line panics, and no envelope reports the block. -/
theorem unknown_block_panics :
    ¬ ((normalizeProviderStreamItem unknownIngress (.contentBlockStart 0 unknownBlock)
        { taskId := "t" }).isSome = true ∧ CutAtBoundary unknownIngress unknownBlock) := by
  rw [content_block_start_returns_iff]
  show ¬ (byteLen (rawPayload unknownIngress unknownBlock) ≤ 512 ∨
    isCharBoundary 512 (rawPayload unknownIngress unknownBlock) = true)
  decide +kernel

end RuntimeEnvelopeNormalizer

end Vexcoder.Handoff

import Vexcoder.Handoff.Pulse

/-!
# Updates at any point

What a user interface update makes the normaliser send, whatever its state: a report `Talks`, it sends
numbered envelopes that neither start nor end a pulse; and what ends a pulse `Ends` it, with one
`PulseEnd` behind such envelopes.
-/

namespace Vexcoder.Handoff

open Base Lib Lib.Assoc Lib.Emitter Vexcoder.Runtime

/-- The signal neither starts nor ends a pulse. -/
def Neutral (signal : RuntimeSignal) : Prop :=
  isPulseStart signal = false ∧ isPulseEnd signal = false

theorem neutral_of_tool {signal : RuntimeSignal} (h : isToolSignal signal = true) :
    Neutral signal := by
  cases signal with
  | pulseStart input | pulseEnd status usage files => cases h
  | _ => exact ⟨rfl, rfl⟩

namespace RuntimeEnvelopeNormalizer

def Talks {α : Type} (x : Emit α) : Prop :=
  ∀ s a out s', x s = some (a, out, s') →
    (∀ e ∈ out, Neutral e.signal) ∧ watch checkSeq s.nextSeq out = some s'.nextSeq

def Ends (status : String) (x : Emit Unit) : Prop :=
  ∀ s out s', x s = some ((), out, s') →
    ∃ before last usage files, out = before ++ [last] ∧ (∀ e ∈ before, Neutral e.signal) ∧
      last.signal = .pulseEnd status usage files ∧
      watch checkSeq s.nextSeq out = some s'.nextSeq

section Rules

variable {α β : Type}

theorem talks_pure (a : α) : Talks (pure a : Emit α) := by
  intro s b out s' h
  obtain ⟨-, rfl, rfl⟩ := by simpa using h
  exact ⟨fun e he => (List.not_mem_nil he).elim, rfl⟩

theorem talks_bind {x : Emit α} {f : α → Emit β} (hx : Talks x) (hf : ∀ a, Talks (f a)) :
    Talks (x >>= f) := by
  intro s b out s'' h
  obtain ⟨a, out₁, s', out₂, h₁, h₂, rfl⟩ := bind_eq_some h
  obtain ⟨neutral₁, number₁⟩ := hx s a out₁ s' h₁
  obtain ⟨neutral₂, number₂⟩ := hf a s' b out₂ s'' h₂
  constructor
  · intro e he
    rcases List.mem_append.mp he with he | he
    · exact neutral₁ e he
    · exact neutral₂ e he
  · rw [watch_append, number₁]
    exact number₂

theorem talks_read : Talks (read : Emit RuntimeEnvelopeNormalizer) := by
  intro s a out s' h
  obtain ⟨-, rfl, rfl⟩ := by simpa using h
  exact ⟨fun e he => (List.not_mem_nil he).elim, rfl⟩

theorem talks_modify {f : RuntimeEnvelopeNormalizer → RuntimeEnvelopeNormalizer}
    (h : ∀ s, (f s).nextSeq = s.nextSeq) : Talks (modify f : Emit Unit) := by
  intro s a out s' hrun
  obtain ⟨rfl, rfl⟩ := by simpa using hrun
  exact ⟨fun e he => (List.not_mem_nil he).elim, congrArg some (h s).symm⟩

theorem talks_emit {p : RuntimeSignal → Prop} {x : Emit RuntimeEnvelope} (hx : Creates p x)
    (hp : ∀ signal, p signal → Neutral signal) : Talks (do emit (← x) : Emit Unit) := by
  intro s a out s' h
  obtain ⟨e, s₁, hrun, hsignal, number, -, -⟩ := emit_run_of_creates hx s
  rw [hrun] at h
  cases h
  refine ⟨fun e' he => ?_, number⟩
  obtain rfl := List.mem_singleton.mp he
  exact hp e'.signal hsignal

theorem ends_bind {status : String} {x : Emit α} {f : α → Emit Unit} (hx : Talks x)
    (hf : ∀ a, Ends status (f a)) : Ends status (x >>= f) := by
  intro s out s'' h
  obtain ⟨a, out₁, s', out₂, h₁, h₂, rfl⟩ := bind_eq_some h
  obtain ⟨neutral₁, number₁⟩ := hx s a out₁ s' h₁
  obtain ⟨before, last, usage, files, rfl, neutral₂, hend, number₂⟩ := hf a s' out₂ s'' h₂
  refine ⟨out₁ ++ before, last, usage, files, (List.append_assoc ..).symm, ?_, hend, ?_⟩
  · intro e he
    rcases List.mem_append.mp he with he | he
    · exact neutral₁ e he
    · exact neutral₂ e he
  · rw [watch_append, number₁]
    exact number₂

end Rules

variable (host : Host)

theorem talks_nextEnvelopeWithSource {signal : RuntimeSignal} (h : Neutral signal)
    (requestId parentFrameId : Option String) (source : Option RuntimeEnvelopeSource) :
    Talks (do emit (← nextEnvelopeWithSource host signal requestId parentFrameId source) : Emit Unit) :=
  talks_emit (creates_nextEnvelopeWithSource host signal requestId parentFrameId source)
    fun _ heq => heq ▸ h

theorem ends_pulseEnd (status : String) (usage : Option TokenUsageEnvelope) (files : List String) :
    Ends status (do emit (← nextEnvelope host (.pulseEnd status usage files)) : Emit Unit) := by
  intro s out s' h
  obtain ⟨e, s₁, hrun, hsignal, number, -, -⟩ := emit_run_of_creates
    (creates_nextEnvelopeWithSource host (.pulseEnd status usage files) none none none) s
  have h : (do emit (← nextEnvelopeWithSource host (.pulseEnd status usage files) none none none) :
      Emit Unit) s = some ((), out, s') := h
  rw [hrun] at h
  cases h
  exact ⟨[], e, usage, files, rfl, fun e' he => (List.not_mem_nil he).elim, hsignal, number⟩

theorem talks_closeOpenFinalTextBlock : Talks (closeOpenFinalTextBlock host) := by
  refine talks_bind talks_read fun s => ?_
  cases s.openFinalTextBlock with
  | none => exact talks_pure ()
  | some index =>
    refine talks_bind (talks_modify fun _ => rfl) fun _ => ?_
    exact talks_nextEnvelopeWithSource host ⟨rfl, rfl⟩ none none _

theorem talks_ensureOpenFinalTextBlock : Talks (ensureOpenFinalTextBlock host) := by
  refine talks_bind talks_read fun s => ?_
  cases s.openFinalTextBlock with
  | some index => exact talks_pure index
  | none =>
    refine talks_bind (talks_modify fun _ => rfl) fun _ => ?_
    rw [← bind_assoc]
    refine talks_bind ?_ fun _ => talks_pure _
    exact talks_nextEnvelopeWithSource host ⟨rfl, rfl⟩ none none _

theorem talks_normalizeStreamBlock (block : StreamBlock) : Talks (normalizeStreamBlock host block) := by
  cases block with
  | toolCall id name input status =>
    exact talks_emit (creates_recordToolCall host id name input) fun _ => neutral_of_tool
  | toolResult toolCallId output isError =>
    exact talks_emit (creates_recordToolResult host toolCallId output isError)
      fun _ => neutral_of_tool
  | thinking content collapsed | finalText content => exact talks_pure ()

theorem talks_blockStart (index : ℕ) (block : StreamBlock) (turnEnd : Option PulseEndContext) :
    Talks (normalizeUiUpdate host (.streamBlockStart index block) turnEnd) := by
  refine talks_bind (talks_closeOpenFinalTextBlock host) fun _ => ?_
  refine talks_bind (talks_modify fun _ => rfl) fun _ => ?_
  rw [← bind_assoc]
  refine talks_bind (talks_nextEnvelopeWithSource host ⟨rfl, rfl⟩ none none _) fun _ => ?_
  refine talks_bind (talks_normalizeStreamBlock host block) fun _ => ?_
  cases block with
  | toolCall id name input status => exact talks_modify fun _ => rfl
  | toolResult toolCallId output isError | thinking content collapsed | finalText content =>
    exact talks_pure ()

theorem talks_blockDelta (index : ℕ) (delta : String) (turnEnd : Option PulseEndContext) :
    Talks (normalizeUiUpdate host (.streamBlockDelta index delta) turnEnd) := by
  refine talks_bind talks_read fun s => ?_
  rw [← bind_assoc]
  refine talks_bind (talks_nextEnvelopeWithSource host ⟨rfl, rfl⟩ none none _) fun _ => ?_
  cases find? index s.streamingToolCallBlocks with
  | none => exact talks_pure ()
  | some runtimeId =>
    exact talks_emit (creates_recordToolCallArgumentsDelta host runtimeId delta)
      fun _ => neutral_of_tool

/-- The updates that report something of a pulse that goes on. -/
def isReport : UiUpdate → Bool
  | .pulseComplete | .error _ => false
  | _ => true

theorem talks_normalizeUiUpdate {update : UiUpdate} (h : isReport update = true)
    (turnEnd : Option PulseEndContext) : Talks (normalizeUiUpdate host update turnEnd) := by
  cases update with
  | transcriptLine line | toolApprovalRequest request =>
    refine talks_bind (talks_closeOpenFinalTextBlock host) fun _ => ?_
    exact talks_nextEnvelopeWithSource host ⟨rfl, rfl⟩ none none none
  | streamDelta text =>
    refine talks_bind (talks_ensureOpenFinalTextBlock host) fun index => ?_
    refine talks_bind talks_read fun s => ?_
    exact talks_nextEnvelopeWithSource host ⟨rfl, rfl⟩ none none _
  | streamBlockStart index block => exact talks_blockStart host index block turnEnd
  | streamBlockDelta index delta => exact talks_blockDelta host index delta turnEnd
  | streamBlockComplete index =>
    refine talks_bind talks_read fun s => ?_
    refine talks_bind (talks_modify fun _ => rfl) fun _ => ?_
    exact talks_nextEnvelopeWithSource host ⟨rfl, rfl⟩ none none _
  | serverMetadata metadata =>
    exact talks_nextEnvelopeWithSource host ⟨rfl, rfl⟩ none none none
  | pulseComplete | error message => cases h
  | unreported => exact talks_pure ()

theorem talks_resolveChangedFiles (changedFiles : List String) : Talks (resolveChangedFiles changedFiles) :=
  talks_bind talks_read fun _ => talks_pure _

theorem ends_finishTurnWithStatus (status : String) (turnEnd : PulseEndContext) :
    Ends status (finishTurnWithStatus host status turnEnd) := by
  refine ends_bind (talks_resolveChangedFiles _) fun files => ?_
  refine ends_bind (talks_closeOpenFinalTextBlock host) fun _ => ?_
  refine ends_bind (talks_modify fun _ => rfl) fun _ => ?_
  exact ends_pulseEnd host status turnEnd.usage files

theorem ends_emitError (code message : String) (turnEnd : PulseEndContext) :
    Ends "failed" (RuntimeEnvelopeNormalizer.emitError host code message false turnEnd) := by
  refine ends_bind (talks_closeOpenFinalTextBlock host) fun _ => ?_
  rw [← bind_assoc]
  refine ends_bind (talks_nextEnvelopeWithSource host ⟨rfl, rfl⟩ none none none) fun _ => ?_
  refine ends_bind (talks_resolveChangedFiles _) fun files => ?_
  refine ends_bind (talks_modify fun _ => rfl) fun _ => ?_
  exact ends_pulseEnd host "failed" turnEnd.usage files

end RuntimeEnvelopeNormalizer

end Vexcoder.Handoff

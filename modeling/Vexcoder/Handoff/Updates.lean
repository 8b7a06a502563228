import Vexcoder.Handoff.ProtocolIngress

/-!
# What one update emits

`Reports signal s out s'` is all that the later proofs need of one user interface update: its first
envelope carries `signal`, the others are about tool calls, the numbers go on from those of `s`, and
neither the ingress state nor the final text block is touched.  `reports_update` gives it for the
four updates that protocol ingress makes while a pulse is open.
-/

namespace Vexcoder.Handoff

open Base Lib Lib.Assoc Lib.Emitter Vexcoder.Runtime

/-! ### Sequence numbers -/

/-- The monitor of the sequence numbers: its state is the number that comes next. -/
def checkSeq (next : ℕ) (envelope : RuntimeEnvelope) : Option ℕ :=
  if envelope.seq = next then some (saturatingSucc next) else none

def isToolSignal : RuntimeSignal → Bool
  | .toolCallStarted .. | .toolCallArgumentsDelta .. | .toolCallCompleted .. | .toolCallFailed .. =>
    true
  | _ => false

structure Reports (signal : RuntimeSignal) (s : RuntimeEnvelopeNormalizer)
    (out : List RuntimeEnvelope) (s' : RuntimeEnvelopeNormalizer) : Prop where
  signals : ∃ first rest, out = first :: rest ∧ first.signal = signal ∧
    ∀ envelope ∈ rest, isToolSignal envelope.signal = true
  numbered : watch checkSeq s.nextSeq out = some s'.nextSeq
  ingress : s'.protocolIngress = s.protocolIngress
  noText : s'.openFinalTextBlock = none

namespace RuntimeEnvelopeNormalizer

variable (host : Host)

/-- `x` always returns an envelope whose signal passes `p`, numbered with the next number. -/
def Creates (p : RuntimeSignal → Prop) (x : Emit RuntimeEnvelope) : Prop :=
  ∀ s, ∃ envelope s', x s = some (envelope, [], s') ∧ p envelope.signal ∧
    envelope.seq = s.nextSeq ∧ s'.nextSeq = saturatingSucc s.nextSeq ∧
    s'.protocolIngress = s.protocolIngress ∧ s'.openFinalTextBlock = s.openFinalTextBlock

theorem creates_nextEnvelopeWithSource (signal : RuntimeSignal)
    (requestId parentFrameId : Option String) (source : Option RuntimeEnvelopeSource) :
    Creates (· = signal) (nextEnvelopeWithSource host signal requestId parentFrameId source) :=
  fun _ => ⟨_, _, rfl, rfl, rfl, rfl, rfl, rfl⟩

theorem creates_recordToolCall (sourceId name : String) (arguments : Value) :
    Creates (isToolSignal · = true) (recordToolCall host sourceId name arguments) :=
  fun _ => ⟨_, _, rfl, rfl, rfl, rfl, rfl, rfl⟩

theorem creates_recordToolResult (sourceId output : String) (isError : Bool) :
    Creates (isToolSignal · = true) (recordToolResult host sourceId output isError) := by
  intro s
  simp only [recordToolResult, bind_of_some (show utcNow host s = some (_, [], _) from rfl),
    bind_of_some (read_run _), prepend_nil]
  cases find? sourceId s.pendingToolCalls with
  | none | some pending => cases isError <;> exact ⟨_, _, rfl, rfl, rfl, rfl, rfl, rfl⟩

theorem creates_recordToolCallArgumentsDelta (toolCallId delta : String) :
    Creates (isToolSignal · = true) (recordToolCallArgumentsDelta host toolCallId delta) :=
  fun _ => ⟨_, _, rfl, rfl, rfl, rfl, rfl, rfl⟩

theorem emit_run_of_creates {p : RuntimeSignal → Prop} {x : Emit RuntimeEnvelope}
    (hx : Creates p x) (s : RuntimeEnvelopeNormalizer) :
    ∃ envelope s', (do emit (← x) : Emit Unit) s = some ((), [envelope], s') ∧ p envelope.signal ∧
      watch checkSeq s.nextSeq [envelope] = some s'.nextSeq ∧
      s'.protocolIngress = s.protocolIngress ∧ s'.openFinalTextBlock = s.openFinalTextBlock := by
  obtain ⟨envelope, s', hrun, hp, hseq, hnext, hin, hopen⟩ := hx s
  refine ⟨envelope, s', ?_, hp, ?_, hin, hopen⟩
  · rw [bind_of_some hrun]
    rfl
  · simp [watch, checkSeq, hseq, hnext]

variable {s : RuntimeEnvelopeNormalizer}

theorem reports_single {signal : RuntimeSignal} {s' : RuntimeEnvelopeNormalizer} {envelope : RuntimeEnvelope}
    (hsig : envelope.signal = signal) (hseq : watch checkSeq s.nextSeq [envelope] = some s'.nextSeq)
    (hin : s'.protocolIngress = s.protocolIngress) (hopen : s'.openFinalTextBlock = none) :
    Reports signal s [envelope] s' :=
  ⟨⟨envelope, [], rfl, hsig, by simp⟩, hseq, hin, hopen⟩

theorem reports_emit (signal : RuntimeSignal) (source : Option RuntimeEnvelopeSource)
    (h : s.openFinalTextBlock = none) :
    ∃ out s', (do emit (← nextEnvelopeWithSource host signal none none source) : Emit Unit) s =
      some ((), out, s') ∧ Reports signal s out s' := by
  obtain ⟨envelope, s', hrun, hp, hseq, hin, hopen⟩ :=
    emit_run_of_creates (creates_nextEnvelopeWithSource host signal none none source) s
  exact ⟨[envelope], s', hrun, reports_single hp hseq hin (hopen.trans h)⟩

theorem reports_blockStart (index : ℕ) (block : StreamBlock) (turnEnd : Option PulseEndContext)
    (h : s.openFinalTextBlock = none) (hblock : ∀ id output isError, block ≠ .toolResult id output isError) :
    ∃ out s', normalizeUiUpdate host (.streamBlockStart index block) turnEnd s =
      some ((), out, s') ∧ Reports (.transcriptBlockStart index block) s out s' := by
  cases s
  subst h
  cases block with
  | toolResult id output isError => exact absurd rfl (hblock id output isError)
  | thinking content collapsed | finalText content =>
    exact ⟨_, _, rfl, ⟨_, _, rfl, rfl, by simp⟩, by simp [watch, checkSeq], rfl, rfl⟩
  | toolCall id name input status =>
    refine ⟨_, _, rfl, ⟨_, _, rfl, rfl, ?_⟩, ?_, rfl, rfl⟩
    · intro envelope henv
      obtain rfl := List.mem_singleton.mp henv
      rfl
    · simp [watch, checkSeq]

theorem reports_blockDelta (index : ℕ) (delta : String) (turnEnd : Option PulseEndContext)
    (h : s.openFinalTextBlock = none) :
    ∃ out s', normalizeUiUpdate host (.streamBlockDelta index delta) turnEnd s =
      some ((), out, s') ∧ Reports (.transcriptBlockDelta index delta) s out s' := by
  obtain ⟨e, s₁, hrun₁, hp, hseq₁, hnext₁, hin₁, hopen₁⟩ := creates_nextEnvelopeWithSource host
    (.transcriptBlockDelta index delta) none none (find? index s.blockSources) s
  simp only [normalizeUiUpdate, bind_of_some (read_run s), prepend_nil, bind_of_some hrun₁,
    bind_of_some (emit_run e s₁)]
  have hnum : watch checkSeq s.nextSeq [e] = some s₁.nextSeq := by
    simp [watch, checkSeq, hseq₁, hnext₁]
  cases find? index s.streamingToolCallBlocks with
  | none => exact ⟨_, _, rfl, reports_single hp hnum hin₁ (hopen₁.trans h)⟩
  | some runtimeId =>
    obtain ⟨e', s₂, hrun₂, htool, hseq₂, hin₂, hopen₂⟩ :=
      emit_run_of_creates (creates_recordToolCallArgumentsDelta host runtimeId delta) s₁
    simp only [hrun₂]
    refine ⟨[e, e'], s₂, rfl, ⟨e, [e'], rfl, hp, by simpa using htool⟩, ?_, hin₂.trans hin₁,
      (hopen₂.trans hopen₁).trans h⟩
    show watch checkSeq s.nextSeq ([e] ++ [e']) = some s₂.nextSeq
    rw [watch_append, hnum]
    exact hseq₂

theorem reports_blockComplete (index : ℕ) (turnEnd : Option PulseEndContext)
    (h : s.openFinalTextBlock = none) :
    ∃ out s', normalizeUiUpdate host (.streamBlockComplete index) turnEnd s =
      some ((), out, s') ∧ Reports (.transcriptBlockComplete index) s out s' := by
  refine ⟨_, _, rfl, ⟨_, _, rfl, rfl, by simp⟩, by simp [watch, checkSeq], rfl, h⟩

/-- The updates that ingress makes while a pulse is open. -/
def reportedSignal : UiUpdate → Option RuntimeSignal
  | .streamBlockStart _ (.toolResult ..) => none
  | .streamBlockStart index block => some (.transcriptBlockStart index block)
  | .streamBlockDelta index delta => some (.transcriptBlockDelta index delta)
  | .streamBlockComplete index => some (.transcriptBlockComplete index)
  | .serverMetadata metadata => some (.serverMetadata metadata)
  | _ => none

theorem reports_update {update : UiUpdate} {signal : RuntimeSignal} (hu : reportedSignal update = some signal)
    (turnEnd : Option PulseEndContext) (h : s.openFinalTextBlock = none) :
    ∃ out s', normalizeUiUpdate host update turnEnd s = some ((), out, s') ∧
      Reports signal s out s' := by
  cases update with
  | streamBlockStart index block =>
    cases block with
    | toolResult id output isError => cases hu
    | _ =>
      obtain rfl := Option.some.inj hu
      exact reports_blockStart host index _ turnEnd h (by simp)
  | streamBlockDelta index delta =>
    obtain rfl := Option.some.inj hu
    exact reports_blockDelta host index delta turnEnd h
  | streamBlockComplete index =>
    obtain rfl := Option.some.inj hu
    exact reports_blockComplete host index turnEnd h
  | serverMetadata metadata =>
    obtain rfl := Option.some.inj hu
    exact reports_emit host (.serverMetadata metadata) none h
  | _ => cases hu

theorem pulseComplete_run (context : PulseEndContext) (h : s.openFinalTextBlock = none) :
    ∃ e s' changedFiles, normalizeUiUpdate host .pulseComplete (some context) s =
      some ((), [e], s') ∧ e.signal = .pulseEnd "completed" context.usage changedFiles ∧
      watch checkSeq s.nextSeq [e] = some s'.nextSeq := by
  cases s
  subst h
  exact ⟨_, _, _, rfl, rfl, by simp [watch, checkSeq, clearPulse]⟩

end RuntimeEnvelopeNormalizer

end Vexcoder.Handoff

import Vexcoder.App.BatchMode
import Vexcoder.Handoff.Normalizer

/-!
# The batch records of a run of envelopes

`derive_batch_records` reads the envelopes that a normaliser has emitted and writes one record of
evidence for each pulse of them.

What the envelopes say about a pulse is read off beside it: the blocks of its transcript, each with
its phase and its text, the calls that were resolved in it and the files they changed.  A signal that
names an index speaks of the block started last among the open ones with that index, and when none is
open, of the one that was closed last.

## Main result

* `deriveBatchRecords_pulses`: there is one record for each pulse, in order, and it says what the
  envelopes say about the pulse, in every run whose blocks are left undisturbed.
-/

namespace Vexcoder.Handoff.BatchRecords

open Base Lib Lib.Emitter Vexcoder.Runtime App
open Vexcoder.Task (CommandEvidence)

/-! ### The derivation -/

def turnTokensFromUsage (usage : TokenUsageEnvelope) : PulseTokens where
  input := usage.input
  output := usage.output
  estimated := usage.estimated
  cacheCreationInputTokens := usage.cacheCreationInput
  cacheReadInputTokens := usage.cacheReadInput

structure DerivedTurnState where
  pulse : ℕ := 0
  input : String := ""
  transcriptResponse : String := ""
  pendingFinalTextBlocks : List (ℕ × String) := []
  changedFiles : List String := []
  commandHistory : List CommandEvidence := []
  tokens : PulseTokens := {}

namespace DerivedTurnState

def startFinalTextBlock (s : DerivedTurnState) (index : ℕ) (content : String) : DerivedTurnState :=
  { s with pendingFinalTextBlocks := Assoc.insertLast index content s.pendingFinalTextBlocks }

/-- The keys of the pending blocks are distinct, so at most one entry takes the delta. -/
def appendFinalTextDelta (s : DerivedTurnState) (index : ℕ) (delta : String) : DerivedTurnState :=
  { s with
    pendingFinalTextBlocks := s.pendingFinalTextBlocks.map fun entry =>
      if entry.1 = index then (entry.1, entry.2 ++ delta) else entry }

def completeFinalTextBlock (s : DerivedTurnState) (index : ℕ) : DerivedTurnState :=
  match Assoc.find? index s.pendingFinalTextBlocks with
  | some content =>
    { s with
      transcriptResponse := s.transcriptResponse ++ content
      pendingFinalTextBlocks := Assoc.erase index s.pendingFinalTextBlocks }
  | none => s

def flushOpenFinalTextBlocks (s : DerivedTurnState) : DerivedTurnState :=
  { s with
    transcriptResponse :=
      s.pendingFinalTextBlocks.foldl (fun response entry => response ++ entry.2) s.transcriptResponse
    pendingFinalTextBlocks := [] }

def intoRecord (s : DerivedTurnState) (instructionsPath : Option String) : TurnEvidenceRecord :=
  let s := s.flushOpenFinalTextBlocks
  { pulse := s.pulse
    input := s.input
    response := s.transcriptResponse
    instructionsPath
    changedFiles := s.changedFiles
    commandHistory := s.commandHistory
    tokens := s.tokens }

def noteToolResult (s : DerivedTurnState) (toolName : Option String) (status : ToolStatus) :
    DerivedTurnState :=
  match toolName.bind fun name => commandEvidenceFromToolResult name (status = .error) with
  | some evidence => { s with commandHistory := s.commandHistory ++ [evidence] }
  | none => s

def receive (s : DerivedTurnState) : RuntimeSignal → DerivedTurnState
  | .transcriptBlockStart index (.finalText content) => s.startFinalTextBlock index content
  | .transcriptBlockDelta index delta => s.appendFinalTextDelta index delta
  | .transcriptBlockComplete index => s.completeFinalTextBlock index
  | .toolCallCompleted _ toolName status .. => s.noteToolResult toolName status
  | .toolCallFailed _ toolName status .. => s.noteToolResult toolName status
  | _ => s

def endPulse (s : DerivedTurnState) (usage : Option TokenUsageEnvelope)
    (changedFiles : List String) : DerivedTurnState :=
  { s with changedFiles, tokens := usage.elim {} turnTokensFromUsage }

end DerivedTurnState

structure DerivedBatchRecords where
  pulses : List TurnEvidenceRecord
  summary : Option SummaryRecord
  maxTurnsReached : Bool

/-- The variables of the loop over the envelopes. -/
structure Derivation where
  pulses : List TurnEvidenceRecord := []
  currentTurn : Option DerivedTurnState := none
  taskId : Option String := none
  lastStatus : Option String := none
  allChangedFiles : List String := []
  maxTurnsReached : Bool := false

namespace Derivation

variable (instructionsPath : Option String)

/-- The record of the turn that is left, if there is one. -/
def leftTurn (d : Derivation) : List TurnEvidenceRecord :=
  d.currentTurn.toList.map fun state => state.intoRecord instructionsPath

def step (d : Derivation) (envelope : RuntimeEnvelope) : Derivation :=
  let d := { d with taskId := d.taskId.or (some envelope.taskId) }
  match envelope.signal with
  | .pulseStart input =>
    { d with
      pulses := d.pulses ++ d.leftTurn instructionsPath
      currentTurn := some { pulse := envelope.pulse, input := input.getD "" } }
  | .pulseEnd status usage changedFiles =>
    match d.currentTurn with
    | some state =>
      { d with
        currentTurn := none
        allChangedFiles := insertAll changedFiles d.allChangedFiles
        lastStatus := some status
        pulses := d.pulses ++ [(state.endPulse usage changedFiles).intoRecord instructionsPath] }
    | none => d
  | .maxTurnsReached _ => { d with maxTurnsReached := true }
  | signal => { d with currentTurn := d.currentTurn.map fun state => state.receive signal }

def finish (d : Derivation) : DerivedBatchRecords :=
  let pulses := d.pulses ++ d.leftTurn instructionsPath
  let allChangedFiles :=
    insertAll (d.currentTurn.elim [] fun state => state.changedFiles) d.allChangedFiles
  { pulses
    summary := d.taskId.bind fun taskId => d.lastStatus.map fun status =>
      { status, taskId, totalTurns := pulses.length, instructionsPath
        changedFiles := allChangedFiles }
    maxTurnsReached := d.maxTurnsReached }

end Derivation

def deriveBatchRecords (envelopes : List RuntimeEnvelope) (instructionsPath : Option String) :
    DerivedBatchRecords :=
  (envelopes.foldl (Derivation.step instructionsPath) {}).finish instructionsPath

/-! ### The blocks of a pulse -/

/-- A block of the transcript.  The blocks of a tool call have no phase. -/
structure Block where
  index : ℕ
  phase : Option AssistantPhase
  text : String
  deriving DecidableEq

namespace Block

def ofStream (index : ℕ) : StreamBlock → Block
  | .thinking content _ => { index, phase := some .thinking, text := content }
  | .finalText content => { index, phase := some .final, text := content }
  | .toolCall .. | .toolResult .. => { index, phase := none, text := "" }

def IsFinal (b : Block) : Prop := b.phase = some .final

instance (b : Block) : Decidable b.IsFinal := inferInstanceAs (Decidable (_ = _))

def saidFinally (b : Block) : String := if b.IsFinal then b.text else ""

def append (delta : String) (b : Block) : Block := { b with text := b.text ++ delta }

def setPhase (phase : AssistantPhase) (b : Block) : Block :=
  { b with phase := b.phase.map fun _ => phase }

@[simp] theorem append_index (delta : String) (b : Block) : (b.append delta).index = b.index := rfl

@[simp] theorem isFinal_append {delta : String} {b : Block} :
    (b.append delta).IsFinal ↔ b.IsFinal := Iff.rfl

@[simp] theorem append_empty (b : Block) : b.append "" = b := by
  simp [append]

theorem saidFinally_append_of_not_isFinal {b : Block} (h : ¬ b.IsFinal) (delta : String) :
    (b.append delta).saidFinally = b.saidFinally := by
  simp [saidFinally, h]

end Block

def lastNamed (index : ℕ) : List Block → Option Block
  | [] => none
  | b :: blocks => (lastNamed index blocks).or (if b.index = index then some b else none)

def modifyLast (index : ℕ) (f : Block → Block) : List Block → List Block
  | [] => []
  | b :: blocks =>
    if b.index = index ∧ lastNamed index blocks = none then f b :: blocks
    else b :: modifyLast index f blocks

def withoutLast (index : ℕ) : List Block → List Block
  | [] => []
  | b :: blocks =>
    if b.index = index ∧ lastNamed index blocks = none then blocks
    else b :: withoutLast index blocks

/-- The text of the final ones among some blocks. -/
def finalText : List Block → String
  | [] => ""
  | b :: blocks => b.saidFinally ++ finalText blocks

/-- The blocks of a pulse: the closed ones in the order in which they were closed, the open ones in
the order in which they were started. -/
structure Transcript where
  closed : List Block := []
  opened : List Block := []

namespace Transcript

/-- The block that a signal with this index speaks of. -/
def latest (t : Transcript) (index : ℕ) : Option Block :=
  (lastNamed index t.opened).or (lastNamed index t.closed)

def modifyLatest (t : Transcript) (index : ℕ) (f : Block → Block) : Transcript :=
  if (lastNamed index t.opened).isSome then { t with opened := modifyLast index f t.opened }
  else { t with closed := modifyLast index f t.closed }

def read (t : Transcript) : RuntimeSignal → Transcript
  | .transcriptBlockStart index block =>
    { t with opened := t.opened ++ [Block.ofStream index block] }
  | .transcriptBlockDelta index delta => t.modifyLatest index (Block.append delta)
  | .transcriptBlockComplete index =>
    match lastNamed index t.opened with
    | some b => { closed := t.closed ++ [b], opened := withoutLast index t.opened }
    | none => t
  | .transcriptBlockPhaseUpdated index phase _ => t.modifyLatest index (Block.setPhase phase)
  | _ => t

def response (t : Transcript) : String := finalText (t.closed ++ t.opened)

/-- The signal does not disturb a block: none is started at the index of an open final block, no
closed final block is given more text, and none is put into another phase. -/
def Undisturbed (t : Transcript) : RuntimeSignal → Prop
  | .transcriptBlockStart index _ => ∀ b ∈ t.opened, b.IsFinal → b.index ≠ index
  | .transcriptBlockDelta index delta =>
    delta = "" ∨ (lastNamed index t.opened).isSome ∨ ∀ b ∈ lastNamed index t.closed, ¬ b.IsFinal
  | .transcriptBlockPhaseUpdated index phase _ => ∀ b ∈ t.latest index, b.setPhase phase = b
  | _ => True

instance (t : Transcript) : (signal : RuntimeSignal) → Decidable (t.Undisturbed signal)
  | .transcriptBlockStart .. => inferInstanceAs (Decidable (∀ b ∈ _, _ → _))
  | .transcriptBlockDelta .. => inferInstanceAs (Decidable (_ ∨ _ ∨ ∀ b ∈ _, _))
  | .transcriptBlockPhaseUpdated .. => inferInstanceAs (Decidable (∀ b ∈ _, _))
  | .pulseStart .. | .transcriptLine .. | .transcriptBlockComplete .. | .toolCallStatusUpdated ..
  | .toolCallStarted .. | .toolCallArgumentsDelta .. | .toolCallCompleted .. | .toolCallFailed ..
  | .approvalRequest .. | .approvalResolved .. | .validationResult .. | .serverMetadata ..
  | .usageUpdated .. | .pulseEnd .. | .error .. | .maxTurnsReached .. =>
    inferInstanceAs (Decidable True)

def UndisturbedBy (t : Transcript) : List RuntimeSignal → Prop
  | [] => True
  | signal :: signals => t.Undisturbed signal ∧ (t.read signal).UndisturbedBy signals

instance undisturbedByDecidable :
    (t : Transcript) → (signals : List RuntimeSignal) → Decidable (t.UndisturbedBy signals)
  | _, [] => inferInstanceAs (Decidable True)
  | t, signal :: signals =>
    have := undisturbedByDecidable (t.read signal) signals
    inferInstanceAs (Decidable (_ ∧ _))

end Transcript

/-! ### The calls of a pulse -/

/-- The calls that were started, under their ids, and the files changed by those that completed. -/
structure CallsRead where
  calls : List (String × String × Value) := []
  files : List String := []

def CallsRead.read (c : CallsRead) : RuntimeSignal → CallsRead
  | .toolCallStarted toolCallId toolName arguments .. =>
    { c with calls := Assoc.insertLast toolCallId (toolName, arguments) c.calls }
  | .toolCallArgumentsDelta toolCallId _ _ _ (some arguments) _ =>
    match Assoc.find? toolCallId c.calls with
    | some (toolName, _) =>
      { c with calls := Assoc.insertLast toolCallId (toolName, arguments) c.calls }
    | none => c
  | .toolCallCompleted toolCallId .. =>
    match Assoc.find? toolCallId c.calls with
    | some (toolName, arguments) =>
      { c with files := noteChangedFilesFromToolCall c.files toolName arguments }
    | none => c
  | _ => c

def evidenceOfSignal : RuntimeSignal → List CommandEvidence
  | .toolCallCompleted _ (some toolName) status ..
  | .toolCallFailed _ (some toolName) status .. =>
    (commandEvidenceFromToolResult toolName (status = .error)).toList
  | _ => []

/-! ### Pulses -/

def bounds : RuntimeSignal → Bool
  | .pulseStart .. | .pulseEnd .. => true
  | _ => false

/-- What a `PulseEnd` reports. -/
def reported : RuntimeSignal → Option (Option TokenUsageEnvelope × List String)
  | .pulseEnd _ usage changedFiles => some (usage, changedFiles)
  | _ => none

/-- A pulse of a run: what its `PulseStart` says, the signals up to its end, and the report of its
`PulseEnd`, which is missing in a pulse that the next one or the end of the run cuts off. -/
structure Pulse where
  number : ℕ
  input : String
  signals : List RuntimeSignal
  ending : Option (Option TokenUsageEnvelope × List String)

def Pulse.before (number : ℕ) (input : String) (signals : List RuntimeSignal) : Pulse where
  number
  input
  signals := signals.takeWhile fun signal => !bounds signal
  ending := (signals.find? bounds).bind reported

/-- One pulse for each `PulseStart`. -/
def pulsesOf : List RuntimeEnvelope → List Pulse
  | [] => []
  | envelope :: envelopes =>
    match envelope.signal with
    | .pulseStart input =>
      Pulse.before envelope.pulse (input.getD "") (envelopes.map (·.signal)) :: pulsesOf envelopes
    | _ => pulsesOf envelopes

namespace Pulse

def transcript (p : Pulse) : Transcript := p.signals.foldl Transcript.read {}

def completedFiles (p : Pulse) : List String := (p.signals.foldl CallsRead.read {}).files

def changedFiles (p : Pulse) : List String := p.ending.elim p.completedFiles Prod.snd

def tokens (p : Pulse) : PulseTokens :=
  p.ending.elim {} fun ending => ending.1.elim {} turnTokensFromUsage

def record (p : Pulse) (instructionsPath : Option String) : TurnEvidenceRecord where
  pulse := p.number
  input := p.input
  response := p.transcript.response
  instructionsPath
  changedFiles := p.changedFiles
  commandHistory := p.signals.flatMap evidenceOfSignal
  tokens := p.tokens

/-- No signal of the pulse disturbs a block, and a pulse that is cut off has changed no file. -/
def Undisturbed (p : Pulse) : Prop :=
  Transcript.UndisturbedBy {} p.signals ∧ (p.ending = none → p.completedFiles = [])

instance (p : Pulse) : Decidable p.Undisturbed := inferInstanceAs (Decidable (_ ∧ _))

end Pulse

/-- What a `PulseStart` says. -/
def startOf (envelope : RuntimeEnvelope) : Option (ℕ × String) :=
  match envelope.signal with
  | .pulseStart input => some (envelope.pulse, input.getD "")
  | _ => none

/-! ### One turn of the derivation for each pulse -/

def Pulse.derivedTurn (p : Pulse) (s : DerivedTurnState) : DerivedTurnState :=
  let s := p.signals.foldl DerivedTurnState.receive s
  p.ending.elim s fun ending => s.endPulse ending.1 ending.2

def Pulse.derivedRecord (p : Pulse) (instructionsPath : Option String) : TurnEvidenceRecord :=
  (p.derivedTurn { pulse := p.number, input := p.input }).intoRecord instructionsPath

/-- The records still to come from a turn in front of these signals. -/
def recordBefore (instructionsPath : Option String) (signals : List RuntimeSignal)
    (s : DerivedTurnState) : TurnEvidenceRecord :=
  ((Pulse.before 0 "" signals).derivedTurn s).intoRecord instructionsPath

variable (instructionsPath : Option String) (s : DerivedTurnState) (blocks : List Block) (index : ℕ)

theorem recordBefore_nil : recordBefore instructionsPath [] s = s.intoRecord instructionsPath := rfl

theorem recordBefore_pulseEnd (status : String) (usage : Option TokenUsageEnvelope)
    (changedFiles : List String) (signals : List RuntimeSignal) (s : DerivedTurnState) :
    recordBefore instructionsPath (.pulseEnd status usage changedFiles :: signals) s =
      (s.endPulse usage changedFiles).intoRecord instructionsPath := rfl

theorem recordBefore_cons {signal : RuntimeSignal} (h : bounds signal = false)
    (instructionsPath : Option String) (signals : List RuntimeSignal) (s : DerivedTurnState) :
    recordBefore instructionsPath (signal :: signals) s =
      recordBefore instructionsPath signals (s.receive signal) := by
  simp [recordBefore, Pulse.before, Pulse.derivedTurn, h]

theorem pulsesOf_cons {envelope : RuntimeEnvelope} (h : bounds envelope.signal = false)
    (envelopes : List RuntimeEnvelope) : pulsesOf (envelope :: envelopes) = pulsesOf envelopes := by
  rw [pulsesOf]
  split
  · rename_i input hsignal
    rw [hsignal] at h
    cases h
  · rfl

/-- What a step does with a signal within a pulse. -/
theorem Derivation.step_of_within (d : Derivation) {envelope : RuntimeEnvelope}
    (h : bounds envelope.signal = false) :
    (d.step instructionsPath envelope).pulses = d.pulses ∧
      (d.step instructionsPath envelope).currentTurn =
        d.currentTurn.map fun state => state.receive envelope.signal := by
  rw [step]
  split
  · rename_i hsignal
    rw [hsignal] at h
    cases h
  · rename_i hsignal
    rw [hsignal] at h
    cases h
  · rename_i hsignal
    rw [hsignal]
    exact ⟨rfl, Option.map_id'.symm⟩
  · exact ⟨rfl, rfl⟩

/-- The records of a derivation are those it has, that of the turn it is in and one for each pulse
still to come. -/
theorem Derivation.pulses_foldl (envelopes : List RuntimeEnvelope) (d : Derivation) :
    ((envelopes.foldl (step instructionsPath) d).finish instructionsPath).pulses =
      d.pulses ++
        (d.currentTurn.toList.map (recordBefore instructionsPath (envelopes.map (·.signal)))) ++
        (pulsesOf envelopes).map fun p => p.derivedRecord instructionsPath := by
  induction envelopes generalizing d with
  | nil =>
    show d.pulses ++ d.leftTurn instructionsPath = _
    simp [leftTurn, recordBefore_nil, pulsesOf]
  | cons envelope envelopes ih =>
    rw [List.foldl_cons, ih]
    by_cases hbounds : bounds envelope.signal = false
    · obtain ⟨hpulses, hturn⟩ := d.step_of_within instructionsPath hbounds
      rw [hpulses, hturn, pulsesOf_cons hbounds]
      cases d.currentTurn with
      | none => rfl
      | some state =>
        simp only [Option.map_some, Option.toList_some, List.map_cons, List.map_nil]
        rw [recordBefore_cons hbounds]
    · obtain ⟨version, taskId, pulse, seq, frameId, emittedAt, source, requestId, parentFrameId,
        signal⟩ := envelope
      cases signal with
      | pulseStart input =>
        show (d.pulses ++ d.leftTurn instructionsPath) ++ [_] ++ _ = d.pulses ++ _ ++ (_ :: _)
        rw [List.append_assoc]
        congr 2
      | pulseEnd status usage changedFiles =>
        cases hturn : d.currentTurn with
        | none => simp [step, hturn, pulsesOf]
        | some state =>
          simp [step, hturn, pulsesOf, recordBefore_pulseEnd]
      | _ => exact absurd rfl hbounds

/-! ### The pending blocks are the open final ones -/

variable {index : ℕ} {blocks : List Block} {f : Block → Block} {b : Block} {s : DerivedTurnState}
  {t : Transcript}

theorem lastNamed_eq_none : lastNamed index blocks = none ↔ ∀ b ∈ blocks, b.index ≠ index := by
  induction blocks with
  | nil => simp [lastNamed]
  | cons b blocks ih => simp [lastNamed, ih, and_comm]

theorem finalText_append (blocks' : List Block) :
    finalText (blocks ++ blocks') = finalText blocks ++ finalText blocks' := by
  induction blocks with
  | nil => simp [finalText]
  | cons b blocks ih => simp [finalText, ih, String.append_assoc]

theorem finalText_modifyLast (h : ∀ b ∈ lastNamed index blocks, (f b).saidFinally = b.saidFinally) :
    finalText (modifyLast index f blocks) = finalText blocks := by
  induction blocks with
  | nil => rfl
  | cons b blocks ih =>
    rw [modifyLast]
    split
    · rename_i hlast
      have hsaid := h b (by simp [lastNamed, hlast.1, hlast.2])
      simp only [finalText, hsaid]
    · have hrest : finalText (modifyLast index f blocks) = finalText blocks := by
        apply ih
        intro b' hb'
        apply h
        simp only [Option.mem_def] at hb'
        simp [lastNamed, hb']
      simp only [finalText, hrest]

theorem modifyLast_eq_self (h : ∀ b ∈ lastNamed index blocks, f b = b) :
    modifyLast index f blocks = blocks := by
  induction blocks with
  | nil => rfl
  | cons b blocks ih =>
    rw [modifyLast]
    split
    · rename_i hlast
      rw [h b (by simp [lastNamed, hlast.1, hlast.2])]
    rw [ih]
    intro b' hb'
    apply h
    simp only [Option.mem_def] at hb'
    simp [lastNamed, hb']

def pending : List Block → List (ℕ × String)
  | [] => []
  | b :: blocks => if b.IsFinal then (b.index, b.text) :: pending blocks else pending blocks

theorem pending_cons_of_isFinal (h : b.IsFinal) (blocks : List Block) :
    pending (b :: blocks) = (b.index, b.text) :: pending blocks := if_pos h

theorem pending_cons_of_not_isFinal (h : ¬ b.IsFinal) (blocks : List Block) :
    pending (b :: blocks) = pending blocks := if_neg h

/-- No block is started at the index of an earlier one that is final. -/
def Apart (blocks : List Block) : Prop :=
  blocks.Pairwise fun earlier later => earlier.IsFinal → later.index ≠ earlier.index

theorem mem_keys_pending :
    index ∈ Assoc.keys (pending blocks) ↔ ∃ b ∈ blocks, b.IsFinal ∧ b.index = index := by
  induction blocks with
  | nil => simp [pending, Assoc.keys]
  | cons b blocks ih =>
    rw [pending]
    split
    · rename_i hfinal
      simp only [Assoc.keys, List.map_cons, List.mem_cons] at ih ⊢
      rw [ih]
      simp [hfinal, eq_comm]
    · rename_i hfinal
      rw [ih]
      simp [hfinal]

theorem pending_append (blocks' : List Block) :
    pending (blocks ++ blocks') = pending blocks ++ pending blocks' := by
  induction blocks with
  | nil => rfl
  | cons b blocks ih =>
    simp only [List.cons_append, pending, ih]
    split <;> rfl

theorem flush_eq (response : String) :
    (pending blocks).foldl (fun response entry => response ++ entry.2) response =
      response ++ finalText blocks := by
  induction blocks generalizing response with
  | nil => simp [pending, finalText]
  | cons b blocks ih =>
    by_cases hfinal : b.IsFinal
    · simp [pending, finalText, Block.saidFinally, hfinal, ih, String.append_assoc]
    · simp [pending, finalText, Block.saidFinally, hfinal, ih]

/-- What a delta does to the pending blocks. -/
def appendAt (index : ℕ) (delta : String) (entries : List (ℕ × String)) : List (ℕ × String) :=
  entries.map fun entry => if entry.1 = index then (entry.1, entry.2 ++ delta) else entry

theorem appendAt_cons_self (delta content : String) (entries : List (ℕ × String)) :
    appendAt index delta ((index, content) :: entries) =
      (index, content ++ delta) :: appendAt index delta entries := by
  simp [appendAt]

theorem appendAt_cons_ne {index' : ℕ} (h : index' ≠ index) (delta content : String)
    (entries : List (ℕ × String)) :
    appendAt index delta ((index', content) :: entries) =
      (index', content) :: appendAt index delta entries := by
  simp [appendAt, h]

theorem appendAt_of_notMem {entries : List (ℕ × String)} (h : index ∉ Assoc.keys entries)
    (delta : String) : appendAt index delta entries = entries := by
  have hid : ∀ entry ∈ entries, (if entry.1 = index then (entry.1, entry.2 ++ delta) else entry) = entry := by
    intro entry hentry
    apply if_neg
    intro heq
    exact h (List.mem_map.mpr ⟨entry, hentry, heq⟩)
  rw [appendAt, List.map_congr_left hid, List.map_id']

theorem pending_modifyLast (h : Apart blocks) (index : ℕ) (delta : String) :
    pending (modifyLast index (Block.append delta) blocks) = appendAt index delta (pending blocks) := by
  induction blocks with
  | nil => rfl
  | cons b blocks ih =>
    obtain ⟨hb, hblocks⟩ := List.pairwise_cons.mp h
    have hnone : (∀ b' ∈ blocks, b'.index ≠ index) →
        appendAt index delta (pending blocks) = pending blocks := by
      intro hindex
      apply appendAt_of_notMem
      rw [mem_keys_pending]
      rintro ⟨b', hb', -, heq⟩
      exact hindex b' hb' heq
    rw [modifyLast]
    split
    · rename_i hlast
      have hrest := hnone (lastNamed_eq_none.mp hlast.2)
      by_cases hfinal : b.IsFinal
      · rw [pending_cons_of_isFinal hfinal, pending_cons_of_isFinal (Block.isFinal_append.mpr hfinal),
          hlast.1, appendAt_cons_self, hrest, Block.append_index, hlast.1]
        rfl
      · rw [pending_cons_of_not_isFinal hfinal,
          pending_cons_of_not_isFinal (mt Block.isFinal_append.mp hfinal), hrest]
    · rename_i hlast
      by_cases hfinal : b.IsFinal
      · -- A final block with this index would be the last of them.
        have hindex : b.index ≠ index := by
          intro heq
          apply hlast
          refine ⟨heq, lastNamed_eq_none.mpr ?_⟩
          intro b' hb'
          rw [← heq]
          exact hb b' hb' hfinal
        rw [pending_cons_of_isFinal hfinal, pending_cons_of_isFinal hfinal, appendAt_cons_ne hindex,
          ih hblocks]
      · rw [pending_cons_of_not_isFinal hfinal, pending_cons_of_not_isFinal hfinal, ih hblocks]

theorem apart_modifyLast (h : Apart blocks) (index : ℕ) (delta : String) :
    Apart (modifyLast index (Block.append delta) blocks) := by
  have hsame : (modifyLast index (Block.append delta) blocks).map
      (fun b => (b.index, b.phase)) = blocks.map fun b => (b.index, b.phase) := by
    clear h
    induction blocks with
    | nil => rfl
    | cons b blocks ih =>
      rw [modifyLast]
      split
      · rfl
      · rw [List.map_cons, List.map_cons, ih]
  have hpairs : ((blocks.map fun b => (b.index, b.phase)).Pairwise fun earlier later =>
      earlier.2 = some .final → later.1 ≠ earlier.1) := List.pairwise_map.mpr h
  rw [← hsame] at hpairs
  exact List.pairwise_map.mp hpairs

theorem withoutLast_sublist (index : ℕ) (blocks : List Block) :
    (withoutLast index blocks).Sublist blocks := by
  induction blocks with
  | nil => exact List.Sublist.slnil
  | cons b blocks ih =>
    rw [withoutLast]
    split
    · exact List.sublist_cons_self b blocks
    · exact ih.cons_cons b

theorem pending_withoutLast (h : Apart blocks) (hlast : lastNamed index blocks = some b) :
    Assoc.find? index (pending blocks) = (if b.IsFinal then some b.text else none) ∧
      pending (withoutLast index blocks) = Assoc.erase index (pending blocks) := by
  induction blocks with
  | nil => cases hlast
  | cons first blocks ih =>
    obtain ⟨hfirst, hblocks⟩ := List.pairwise_cons.mp h
    by_cases hrest : lastNamed index blocks = none
    · have hkeys : index ∉ Assoc.keys (pending blocks) := by
        rw [mem_keys_pending]
        rintro ⟨b', hb', -, heq⟩
        exact lastNamed_eq_none.mp hrest b' hb' heq
      obtain ⟨hindex, rfl⟩ : first.index = index ∧ first = b := by
        simpa [lastNamed, hrest] using hlast
      have hwithout : withoutLast index (first :: blocks) = blocks := if_pos ⟨hindex, hrest⟩
      rw [hwithout]
      by_cases hfinal : first.IsFinal
      · rw [pending_cons_of_isFinal hfinal, if_pos hfinal, hindex, Assoc.erase_cons_self,
          Assoc.erase_of_notMem_keys hkeys]
        exact ⟨if_pos rfl, rfl⟩
      · rw [pending_cons_of_not_isFinal hfinal, if_neg hfinal, Assoc.erase_of_notMem_keys hkeys]
        exact ⟨Assoc.find?_eq_none_iff.mpr hkeys, rfl⟩
    · obtain ⟨b', hb'⟩ := Option.ne_none_iff_exists'.mp hrest
      have hb : b' = b := by simpa [lastNamed, hb'] using hlast
      obtain ⟨hfind, hpending⟩ := ih hblocks (hb ▸ hb')
      have hwithout : withoutLast index (first :: blocks) = first :: withoutLast index blocks :=
        if_neg fun hand => hrest hand.2
      rw [hwithout]
      by_cases hfinal : first.IsFinal
      · have hindex : ¬ index = first.index := by
          intro heq
          apply hrest
          apply lastNamed_eq_none.mpr
          intro later hlater
          rw [heq]
          exact hfirst later hlater hfinal
        rw [pending_cons_of_isFinal hfinal, pending_cons_of_isFinal hfinal, hpending,
          Assoc.erase_cons_ne hindex]
        exact ⟨(if_neg hindex).trans hfind, rfl⟩
      · rw [pending_cons_of_not_isFinal hfinal, pending_cons_of_not_isFinal hfinal]
        exact ⟨hfind, hpending⟩

/-! ### The derivation follows the transcript -/

/-- The derivation has the final text of the closed blocks, and keeps that of the open ones. -/
structure Follows (s : DerivedTurnState) (t : Transcript) : Prop where
  response : s.transcriptResponse = finalText t.closed
  pending : s.pendingFinalTextBlocks = pending t.opened
  apart : Apart t.opened

theorem apart_start (h : Apart blocks) {started : Block}
    (hstarted : ∀ b ∈ blocks, b.IsFinal → b.index ≠ started.index) :
    Apart (blocks ++ [started]) := by
  apply List.pairwise_append.mpr
  refine ⟨h, List.pairwise_singleton _ _, ?_⟩
  intro b hb later hlater hfinal
  rw [List.mem_singleton.mp hlater]
  exact (hstarted b hb hfinal).symm

theorem Follows.start (h : Follows s t) {block : StreamBlock}
    (hindex : ∀ b ∈ t.opened, b.IsFinal → b.index ≠ index) :
    Follows (s.receive (.transcriptBlockStart index block)) (t.read (.transcriptBlockStart index block)) := by
  have hopened : Apart (t.opened ++ [Block.ofStream index block]) := by
    apply apart_start h.apart
    intro b hb hfinal
    have hne := hindex b hb hfinal
    cases block <;> exact hne
  refine ⟨?_, ?_, hopened⟩
  · cases block <;> exact h.response
  · show _ = BatchRecords.pending (t.opened ++ _)
    rw [pending_append, ← h.pending]
    cases block with
    | finalText content =>
      apply Assoc.insertLast_of_notMem
      rw [h.pending, mem_keys_pending]
      rintro ⟨b, hb, hfinal, heq⟩
      exact hindex b hb hfinal heq
    | _ => exact (List.append_nil _).symm

theorem Follows.delta (h : Follows s t) {delta : String}
    (hdelta : t.Undisturbed (.transcriptBlockDelta index delta)) :
    Follows (s.receive (.transcriptBlockDelta index delta)) (t.read (.transcriptBlockDelta index delta)) := by
  show Follows (s.appendFinalTextDelta index delta) (t.modifyLatest index _)
  rw [Transcript.modifyLatest]
  split
  · refine ⟨h.response, ?_, apart_modifyLast h.apart index delta⟩
    show appendAt index delta s.pendingFinalTextBlocks = _
    rw [h.pending, pending_modifyLast h.apart]
  · rename_i hnone
    refine ⟨?_, ?_, h.apart⟩
    · show s.transcriptResponse = finalText (modifyLast index _ t.closed)
      rw [h.response, finalText_modifyLast]
      intro b hb
      rcases hdelta with rfl | hsome | hclosed
      · rw [Block.append_empty]
      · exact absurd hsome hnone
      · exact Block.saidFinally_append_of_not_isFinal (hclosed b hb) delta
    · show appendAt index delta s.pendingFinalTextBlocks = _
      rw [h.pending]
      apply appendAt_of_notMem
      rw [mem_keys_pending]
      rintro ⟨b, hb, -, heq⟩
      exact lastNamed_eq_none.mp (Option.not_isSome_iff_eq_none.mp hnone) b hb heq

theorem Follows.complete (h : Follows s t) (index : ℕ) :
    Follows (s.receive (.transcriptBlockComplete index)) (t.read (.transcriptBlockComplete index)) := by
  show Follows (s.completeFinalTextBlock index) _
  rw [DerivedTurnState.completeFinalTextBlock, Transcript.read]
  cases hlast : lastNamed index t.opened with
  | none =>
    have hfind : Assoc.find? index s.pendingFinalTextBlocks = none := by
      rw [h.pending, Assoc.find?_eq_none_iff, mem_keys_pending]
      rintro ⟨b, hb, -, heq⟩
      exact lastNamed_eq_none.mp hlast b hb heq
    rw [hfind]
    exact h
  | some b =>
    obtain ⟨hfind, hpending⟩ := pending_withoutLast h.apart hlast
    have hapart : Apart (withoutLast index t.opened) :=
      List.Pairwise.sublist (withoutLast_sublist index t.opened) h.apart
    rw [← h.pending] at hfind hpending
    by_cases hfinal : b.IsFinal
    · rw [if_pos hfinal] at hfind
      rw [hfind]
      refine ⟨?_, hpending.symm, hapart⟩
      simp [finalText_append, finalText, Block.saidFinally, hfinal, h.response]
    · rw [if_neg hfinal] at hfind
      rw [hfind]
      refine ⟨?_, ?_, hapart⟩
      · simp [finalText_append, finalText, Block.saidFinally, hfinal, h.response]
      · show s.pendingFinalTextBlocks = _
        rw [hpending, Assoc.erase_of_notMem_keys (Assoc.find?_eq_none_iff.mp hfind)]

theorem Transcript.modifyLatest_eq_self (h : ∀ b ∈ t.latest index, f b = b) : t.modifyLatest index f = t := by
  rw [modifyLatest]
  split
  · rw [modifyLast_eq_self]
    intro b hb
    apply h
    rw [latest, hb]
    rfl
  · rename_i hnone
    rw [modifyLast_eq_self]
    intro b hb
    apply h
    rw [latest, Option.not_isSome_iff_eq_none.mp hnone]
    exact hb

theorem DerivedTurnState.noteToolResult_eq (toolName : Option String) (status : ToolStatus) :
    s.noteToolResult toolName status =
      { s with
        commandHistory := s.commandHistory ++ (toolName.bind fun name =>
          commandEvidenceFromToolResult name (status = .error)).toList } := by
  rw [noteToolResult]
  cases toolName.bind fun name => commandEvidenceFromToolResult name (status = .error) <;> simp

theorem Follows.receive (h : Follows s t) {signal : RuntimeSignal} (hsignal : t.Undisturbed signal) :
    Follows (s.receive signal) (t.read signal) := by
  cases signal with
  | transcriptBlockStart index block => exact h.start hsignal
  | transcriptBlockDelta index delta => exact h.delta hsignal
  | transcriptBlockComplete index => exact h.complete index
  | transcriptBlockPhaseUpdated index phase streaming =>
    have hsame : t.read (.transcriptBlockPhaseUpdated index phase streaming) = t :=
      Transcript.modifyLatest_eq_self hsignal
    rw [hsame]
    exact h
  | toolCallCompleted toolCallId toolName status | toolCallFailed toolCallId toolName status =>
    show Follows (s.noteToolResult toolName status) t
    rw [DerivedTurnState.noteToolResult_eq]
    exact ⟨h.response, h.pending, h.apart⟩
  | _ => exact h

theorem Follows.run (signals : List RuntimeSignal) (h : Follows s t) (hsignals : t.UndisturbedBy signals) :
    Follows (signals.foldl DerivedTurnState.receive s) (signals.foldl Transcript.read t) := by
  induction signals generalizing s t with
  | nil => exact h
  | cons signal signals ih => exact ih (h.receive hsignals.1) hsignals.2

theorem DerivedTurnState.receive_rest (signal : RuntimeSignal) :
    (s.receive signal).pulse = s.pulse ∧ (s.receive signal).input = s.input ∧
      (s.receive signal).changedFiles = s.changedFiles ∧ (s.receive signal).tokens = s.tokens ∧
      (s.receive signal).commandHistory = s.commandHistory ++ evidenceOfSignal signal := by
  cases signal with
  | transcriptBlockStart index block =>
    cases block <;> exact ⟨rfl, rfl, rfl, rfl, (List.append_nil _).symm⟩
  | transcriptBlockComplete index =>
    simp only [receive, completeFinalTextBlock]
    split <;> simp [evidenceOfSignal]
  | toolCallCompleted toolCallId toolName status | toolCallFailed toolCallId toolName status =>
    simp only [receive, noteToolResult_eq]
    cases toolName <;> simp [evidenceOfSignal]
  | _ => exact ⟨rfl, rfl, rfl, rfl, (List.append_nil _).symm⟩

theorem DerivedTurnState.foldl_receive_rest (signals : List RuntimeSignal) (s : DerivedTurnState) :
    (signals.foldl receive s).pulse = s.pulse ∧ (signals.foldl receive s).input = s.input ∧
      (signals.foldl receive s).changedFiles = s.changedFiles ∧
      (signals.foldl receive s).tokens = s.tokens ∧
      (signals.foldl receive s).commandHistory = s.commandHistory ++ signals.flatMap evidenceOfSignal := by
  induction signals generalizing s with
  | nil => exact ⟨rfl, rfl, rfl, rfl, (List.append_nil _).symm⟩
  | cons signal signals ih =>
    obtain ⟨hpulse, hinput, hfiles, htokens, hhistory⟩ := ih (s.receive signal)
    obtain ⟨hpulse', hinput', hfiles', htokens', hhistory'⟩ := s.receive_rest signal
    refine ⟨hpulse.trans hpulse', hinput.trans hinput', hfiles.trans hfiles',
      htokens.trans htokens', hhistory.trans ?_⟩
    rw [hhistory', List.append_assoc, List.flatMap_cons]

/-- The record of a pulse whose blocks are left undisturbed says what the envelopes say about it. -/
theorem Pulse.derivedRecord_eq {p : Pulse} (h : p.Undisturbed) (instructionsPath : Option String) :
    p.derivedRecord instructionsPath = p.record instructionsPath := by
  obtain ⟨hsignals, hcut⟩ := h
  have hstart : Follows { pulse := p.number, input := p.input } {} :=
    ⟨rfl, rfl, List.Pairwise.nil⟩
  obtain ⟨hresponse, hpending, -⟩ := hstart.run p.signals hsignals
  obtain ⟨hpulse, hinput, hfiles, htokens, hhistory⟩ :=
    DerivedTurnState.foldl_receive_rest p.signals { pulse := p.number, input := p.input }
  rw [derivedRecord, derivedTurn]
  generalize p.signals.foldl DerivedTurnState.receive { pulse := p.number, input := p.input } = s
    at *
  have hflush : s.flushOpenFinalTextBlocks.transcriptResponse = p.transcript.response := by
    show s.pendingFinalTextBlocks.foldl _ s.transcriptResponse = _
    rw [hpending, flush_eq, hresponse, Transcript.response, finalText_append]
    rfl
  cases hending : p.ending with
  | none =>
    show s.intoRecord instructionsPath = p.record instructionsPath
    simp only [DerivedTurnState.intoRecord, record, hflush]
    simp [DerivedTurnState.flushOpenFinalTextBlocks, changedFiles, tokens, hending, hcut hending,
      hpulse, hinput, hfiles, htokens, hhistory]
  | some ending =>
    show (s.endPulse ending.1 ending.2).intoRecord instructionsPath = p.record instructionsPath
    have hflush' :
        (s.endPulse ending.1 ending.2).flushOpenFinalTextBlocks.transcriptResponse =
          p.transcript.response := hflush
    simp only [DerivedTurnState.intoRecord, record, hflush']
    simp [DerivedTurnState.flushOpenFinalTextBlocks, DerivedTurnState.endPulse, changedFiles,
      tokens, hending, hpulse, hinput, hhistory]

theorem startsOf_pulsesOf (envelopes : List RuntimeEnvelope) :
    (pulsesOf envelopes).map (fun p => (p.number, p.input)) = envelopes.filterMap startOf := by
  induction envelopes with
  | nil => rfl
  | cons envelope envelopes ih =>
    rw [pulsesOf]
    cases hsignal : envelope.signal <;> simp [startOf, hsignal, ih, Pulse.before]

/-- There is one record for each `PulseStart`, in order, and when no signal of a pulse disturbs its
blocks, and no pulse that is cut off has changed a file, the records say what the envelopes say
about the pulses. -/
theorem deriveBatchRecords_pulses {envelopes : List RuntimeEnvelope}
    (h : ∀ p ∈ pulsesOf envelopes, p.Undisturbed) (instructionsPath : Option String) :
    ((deriveBatchRecords envelopes instructionsPath).pulses.map fun r => (r.pulse, r.input)) =
        envelopes.filterMap startOf ∧
      (deriveBatchRecords envelopes instructionsPath).pulses =
        (pulsesOf envelopes).map fun p => p.record instructionsPath := by
  have hrecords : (deriveBatchRecords envelopes instructionsPath).pulses =
      (pulsesOf envelopes).map fun p => p.record instructionsPath := by
    rw [deriveBatchRecords, Derivation.pulses_foldl]
    show (pulsesOf envelopes).map _ = _
    apply List.map_congr_left
    intro p hp
    exact Pulse.derivedRecord_eq (h p hp) instructionsPath
  refine ⟨?_, hrecords⟩
  rw [hrecords, List.map_map, ← startsOf_pulsesOf]
  rfl

/-! ### Two runs of a normaliser -/

open RuntimeEnvelopeNormalizer in
/-- Two pulses, the first of which is cut off by the second: its blocks `0` and `2` are final, and
are closed in the other order. -/
def interleavedRun (host : Host) : Emit Unit := do
  emit (← startPulse host 1 (some "first"))
  normalizeUiUpdate host (.streamBlockStart 0 (.finalText "a")) none
  normalizeUiUpdate host (.streamBlockStart 1 (.thinking "t" false)) none
  normalizeUiUpdate host (.streamBlockStart 2 (.finalText "c")) none
  normalizeUiUpdate host (.streamBlockDelta 0 "b") none
  normalizeUiUpdate host (.streamBlockComplete 2) none
  normalizeUiUpdate host (.streamBlockDelta 1 "u") none
  emit (← startPulse host 2 (some "second"))
  normalizeUiUpdate host (.streamDelta "d") none
  normalizeUiUpdate host .pulseComplete none

open RuntimeEnvelopeNormalizer in
def promotedRun (host : Host) : Emit Unit := do
  emit (← startPulse host 1 (some "hi"))
  normalizeUiUpdate host (.streamBlockStart 0 (.thinking "hello" false)) none
  emit (← emitSignal host (.transcriptBlockPhaseUpdated 0 .final false))
  normalizeUiUpdate host .pulseComplete none

def stillHost : Host where
  now := fun _ => 0
  nanosecond := fun _ => 0
  timestampString := fun _ => "1970-01-01T00:00:00.000Z"
  codec := { fromStr := fun _ => none, toString := fun _ => [], parseF64 := fun _ => none }

def envelopesOf (run : Host → Emit Unit) : List RuntimeEnvelope :=
  (run stillHost { taskId := "t" }).elim [] fun r => r.2.1

theorem interleavedRun_pulses :
    (deriveBatchRecords (envelopesOf interleavedRun) none).pulses.map
        (fun r => (r.pulse, r.input, r.response)) =
      [(1, "first", "cab"), (2, "second", "d")] := by
  rw [(deriveBatchRecords_pulses (by decide) none).2]
  decide

/-- The text of the promoted block is not in the response. -/
theorem promotedRun_response_empty :
    (deriveBatchRecords (envelopesOf promotedRun) none).pulses.map (·.response) = [""] ∧
      (pulsesOf (envelopesOf promotedRun)).map (·.transcript.response) = ["hello"] := by
  decide

end Vexcoder.Handoff.BatchRecords

import Vexcoder.App.BatchSteps

/-!
# The record of a batch turn

A turn whose steps are faithful is recorded as it was: the files are those of the calls that succeeded,
by the input they were executed with, the commands are in the order of their results, and the response
is the text deltas in order.  `record_matches` is the induction along the turn.

A step is not faithful when the block of a call does not show what the call was executed with.  The
arguments that a stream reports behind the start of a call reach the call, but neither its block nor batch
mode, which passes over `ToolCallArgumentsUpdated`.
-/

namespace Vexcoder.App

open Base Lib Lib.Emitter Vexcoder.Runtime Vexcoder.Task
open Conversation BatchMode

/-! ### The condition on a turn -/

def FaithfulInput (env : Environment) (s : BatchTurn) : TurnInput → Prop
  | .event event => FaithfulStep env s.machine s.ledger event
  | .aside _ => True

instance (env : Environment) (s : BatchTurn) (input : TurnInput) : Decidable (FaithfulInput env s input) :=
  match input with
  | .event event => inferInstanceAs (Decidable (FaithfulStep env s.machine s.ledger event))
  | .aside _ => .isTrue trivial

def FaithfulAlong (env : Environment) (lastPulse : PulseTokens) : BatchTurn → List TurnInput → Prop
  | _, [] => True
  | s, input :: inputs =>
    FaithfulInput env s input ∧
      match s.step? env lastPulse input with
      | none => True
      | some s' => FaithfulAlong env lastPulse s' inputs

instance decidableFaithfulAlong (env : Environment) (lastPulse : PulseTokens) :
    (s : BatchTurn) → (inputs : List TurnInput) → Decidable (FaithfulAlong env lastPulse s inputs)
  | _, [] => .isTrue trivial
  | s, input :: inputs =>
    @instDecidableAnd _ _ _ (match s.step? env lastPulse input with
      | none => .isTrue trivial
      | some s' => decidableFaithfulAlong env lastPulse s' inputs)

/-! ### One step -/

/-- Driver, mode and history of a turn that began with the mode `b`. -/
structure BatchTurn.Sound (b : BatchMode) (s : BatchTurn) : Prop where
  coherent : Coherent s.forwarder s.batch s.ledger
  accurate : s.Matches
  fixed : s.batch.fixed = b.fixed
  sorted : s.batch.currentTurnChangedFiles.Pairwise (· < ·)

namespace BatchTurn

variable {env : Environment} {lastPulse : PulseTokens} {b : BatchMode}

theorem mem_resultEvidence {due : Option (ToolCall × Bool)} {path : String} :
    path ∈ (resultEvidence due).files ↔
      ∃ call, (call, false) ∈ due.toList ∧ path ∈ executedPaths call.name call.input := by
  cases due with
  | none => exact ⟨nofun, fun ⟨_, h, _⟩ => absurd h List.not_mem_nil⟩
  | some result =>
    obtain ⟨call, isError⟩ := result
    cases isError with
    | true =>
      refine ⟨nofun, ?_⟩
      rintro ⟨call', hmem, -⟩
      cases (Prod.mk.inj (List.mem_singleton.mp hmem)).2
    | false =>
      refine ⟨fun h => ⟨call, List.mem_singleton_self _, h⟩, ?_⟩
      rintro ⟨call', hmem, h⟩
      obtain ⟨rfl, -⟩ := Prod.mk.inj (List.mem_singleton.mp hmem)
      exact h

theorem commands_resultEvidence (due : Option (ToolCall × Bool)) :
    (resultEvidence due).commands = due.toList.flatMap fun (call, isError) =>
      (commandEvidenceFromToolResult call.name isError).toList := by
  cases due with
  | none => rfl
  | some result => exact (List.append_nil _).symm

variable {s s' : BatchTurn}

/-- The driver forwards what an accepted step has shown. -/
theorem Sound.forwarded {machine : Machine} {arguments : Bool} {reports : List Report}
    {due : Option (ToolCall × Bool)} {w' : Watch} (h : s.Sound b)
    (hw : watch (showMonitor arguments) { ledger := s.ledger, due } reports = some w') (hdue : w'.due = none)
    (hshow : ({ s with machine, results := s.results ++ due.toList } : BatchTurn).show? env.codec
      lastPulse arguments (updatesOf reports) = some s') : s'.Sound b := by
  rw [show?] at hshow
  split at hshow
  · cases hshow
  rename_i out forwarder hforward
  obtain rfl := Option.some.inj hshow
  have hreceived : _ ∧ Coherent forwarder (s.batch.receive lastPulse out) _ ∧ _ :=
    receive_reports hw h.coherent hforward
  obtain ⟨hledger, hcoherent, hrecorded⟩ := hreceived
  refine ⟨?_, ⟨fun path => ?_, ?_, ?_⟩, hrecorded.fixed.trans h.fixed, hrecorded.sorted h.sorted⟩
  · have hfold : (s.updates ++ updatesOf reports).foldl Ledger.note {} = w'.ledger := by
      rw [List.foldl_append, hledger]
      rfl
    show Coherent forwarder (s.batch.receive lastPulse out)
      ((s.updates ++ updatesOf reports).foldl Ledger.note {})
    rw [hfold]
    exact hcoherent
  · have hfiles : path ∈ (s.batch.receive lastPulse out).currentTurnChangedFiles ↔
        path ∈ s.batch.currentTurnChangedFiles ∨ path ∈ (resultEvidence due).files := by
      have hadded := hrecorded.changedFiles path
      rw [hdue] at hadded
      exact ⟨fun hpath => hadded.mp (.inl hpath),
        fun hpath => (hadded.mpr hpath).resolve_right List.not_mem_nil⟩
    have hbefore := h.accurate.changedFiles path
    show path ∈ (s.batch.receive lastPulse out).currentTurnChangedFiles ↔
      ∃ call, (call, false) ∈ s.results ++ due.toList ∧ path ∈ executedPaths call.name call.input
    rw [hfiles, hbefore, mem_resultEvidence]
    constructor
    · rintro (⟨call, hmem, hcall⟩ | ⟨call, hmem, hcall⟩)
      · exact ⟨call, List.mem_append_left _ hmem, hcall⟩
      · exact ⟨call, List.mem_append_right _ hmem, hcall⟩
    · rintro ⟨call, hmem, hcall⟩
      rcases List.mem_append.mp hmem with hmem | hmem
      · exact .inl ⟨call, hmem, hcall⟩
      · exact .inr ⟨call, hmem, hcall⟩
  · have hcommands : (s.batch.receive lastPulse out).currentTurnCommandHistory ++ [] =
        s.batch.currentTurnCommandHistory ++ (resultEvidence due).commands := by
      have hadded := hrecorded.commandHistory
      rwa [hdue] at hadded
    show (s.batch.receive lastPulse out).currentTurnCommandHistory = (s.results ++ due.toList).flatMap _
    rw [List.append_nil] at hcommands
    rw [hcommands, commands_resultEvidence, h.accurate.commandHistory, List.flatMap_append]
  · show (s.batch.receive lastPulse out).currentResponse = Text.join "" (s.deltas ++ _)
    rw [hrecorded.response, Text.join_empty_append, h.accurate.response]

/-- A faithful step keeps the record accurate. -/
theorem Sound.step {input : TurnInput} (h : s.Sound b) (hfaithful : FaithfulInput env s input)
    (hstep : s.step? env lastPulse input = some s') : s'.Sound b := by
  cases input with
  | aside update =>
    rw [step?] at hstep
    split at hstep
    · rename_i haside
      have hplain : PlainReport (.update update) := by
        cases update with
        | blockStart | blockDelta | streamError => cases haside
        | _ => trivial
      obtain ⟨l, hl⟩ := showMonitor_plain (w := { ledger := s.ledger, due := none }) hplain
      have hwatch : watch (showMonitor false) { ledger := s.ledger, due := none } [.update update] =
          some { ledger := l, due := none } := by
        rw [watch, hl]
        rfl
      have hshow : ({ s with results := s.results ++ (none : Option (ToolCall × Bool)).toList } :
          BatchTurn).show? env.codec lastPulse false (updatesOf [.update update]) = some s' := by
        show ({ s with results := s.results ++ [] } : BatchTurn).show? env.codec lastPulse false
          [update] = some s'
        rw [List.append_nil]
        exact hstep
      exact Sound.forwarded h hwatch rfl hshow
    · cases hstep
  | event event =>
    rw [step?] at hstep
    split at hstep
    · cases hstep
    rename_i reports machine hmachine
    rw [Conversation.step] at hmachine
    split at hmachine
    · cases hmachine
    rename_i phase reports' manager hadvance
    obtain ⟨-, hreports⟩ := Prod.mk.inj (Option.some.inj hmachine)
    obtain ⟨rfl, rfl⟩ := Prod.mk.inj hreports
    have hspec := advance_accepted env s.machine.phase event s.machine.manager s.ledger hfaithful
    obtain ⟨w', hw, hdue⟩ := hspec s.machine.manager _ _ _ _ ⟨rfl, rfl⟩ hadvance
    exact Sound.forwarded h hw hdue hstep

theorem Sound.run {inputs : List TurnInput} (h : s.Sound b) (hfaithful : FaithfulAlong env lastPulse s inputs)
    (hrun : s.run? env lastPulse inputs = some s') : s'.Sound b := by
  induction inputs generalizing s with
  | nil =>
    obtain rfl := Option.some.inj hrun
    exact h
  | cons input inputs ih =>
    obtain ⟨s₁, hstep, hrest⟩ := Option.bind_eq_some_iff.mp hrun
    obtain ⟨hfirst, hlater⟩ := hfaithful
    rw [hstep] at hlater
    exact ih (h.step hfirst hstep) hlater hrest

end BatchTurn

/-! ### The start and the end of a turn -/

theorem onUserInput_started {batch b : BatchMode} {clearNotes : Except String Unit}
    {input started : String} (h : batch.onUserInput clearNotes input = (b, some started)) :
    b = batch.beginTurn input ∧ started = input := by
  rw [onUserInput] at h
  split at h
  · cases h
  split at h
  · cases h
  · split at h
    · cases h
    · obtain ⟨rfl, hstarted⟩ := Prod.mk.inj h
      exact ⟨rfl, (Option.some.inj hstarted).symm⟩

theorem sound_beginTurn (batch : BatchMode) (input : String) (machine : Machine) :
    BatchTurn.Sound (batch.beginTurn input) { machine, batch := batch.beginTurn input } where
  coherent := ⟨rfl, fun _ => Iff.rfl, List.nodup_nil⟩
  accurate := ⟨fun _ => ⟨nofun, fun ⟨_, h, _⟩ => absurd h List.not_mem_nil⟩,
    rfl, rfl⟩
  fixed := rfl
  sorted := List.Pairwise.nil

section

variable {env : Environment} {codec : JsonCodec} {lastPulse : PulseTokens}

theorem forwardAll_append {f f' : Forwarder} {us : List ConversationStreamUpdate} {out : List UiUpdate}
    (h : forwardAll codec f us = (out, some f')) (vs : List ConversationStreamUpdate) :
    forwardAll codec f (us ++ vs) = (out ++ (forwardAll codec f' vs).1, (forwardAll codec f' vs).2) := by
  induction us generalizing f out with
  | nil =>
    obtain ⟨rfl, hf⟩ := Prod.mk.inj h
    obtain rfl := Option.some.inj hf
    rfl
  | cons u us ih =>
    rw [forwardAll] at h
    rw [List.cons_append, forwardAll]
    cases hone : forwardConversationUpdate codec f u with
    | mk out₁ next =>
      rw [hone] at h
      cases next with
      | none => cases h
      | some f₁ =>
        obtain ⟨rfl, hrest⟩ := Prod.mk.inj h
        dsimp only
        rw [ih (Prod.ext rfl hrest), List.append_assoc]

/-- Driver and mode are where the updates of the conversation have brought them. -/
def BatchTurn.Sent (codec : JsonCodec) (lastPulse : PulseTokens) (b : BatchMode) (s : BatchTurn) :
    Prop :=
  ∃ out, forwardAll codec {} s.updates = (out, some s.forwarder) ∧ b.receive lastPulse out = s.batch

variable {b : BatchMode} {s s' : BatchTurn}

theorem BatchTurn.Sent.show {machine : Machine} {results : List (ToolCall × Bool)}
    {arguments : Bool} {updates : List ConversationStreamUpdate} (h : s.Sent codec lastPulse b)
    (hshow : ({ s with machine, results } : BatchTurn).show? codec lastPulse arguments updates =
      some s') : s'.Sent codec lastPulse b := by
  rw [show?] at hshow
  split at hshow
  · cases hshow
  rename_i out forwarder hforward
  obtain rfl := Option.some.inj hshow
  obtain ⟨past, hpast, hreceived⟩ := h
  refine ⟨past ++ out, ?_, ?_⟩
  · show forwardAll codec {} (s.updates ++ updates) = (past ++ out, some forwarder)
    rw [forwardAll_append hpast, hforward]
  · show b.receive lastPulse (past ++ out) = s.batch.receive lastPulse out
    rw [receive_append, hreceived]

theorem BatchTurn.Sent.step {input : TurnInput} (h : s.Sent env.codec lastPulse b)
    (hstep : s.step? env lastPulse input = some s') : s'.Sent env.codec lastPulse b := by
  cases input with
  | aside update =>
    rw [step?] at hstep
    split at hstep
    · exact BatchTurn.Sent.show h hstep
    · cases hstep
  | event event =>
    rw [step?] at hstep
    split at hstep
    · cases hstep
    · exact BatchTurn.Sent.show h hstep

theorem BatchTurn.Sent.run {inputs : List TurnInput} (h : s.Sent env.codec lastPulse b)
    (hrun : s.run? env lastPulse inputs = some s') : s'.Sent env.codec lastPulse b := by
  induction inputs generalizing s with
  | nil =>
    obtain rfl := Option.some.inj hrun
    exact h
  | cons input inputs ih =>
    obtain ⟨s₁, hstep, hrest⟩ := Option.bind_eq_some_iff.mp hrun
    exact ih (h.step hstep) hrest

theorem BatchTurn.Sent.finish (h : s.Sent codec lastPulse b) (order : DrainOrder) (ending : PulseEnding) :
    b.receive lastPulse (startPulse codec order s.updates ending) = s.finish order lastPulse ending := by
  obtain ⟨out, hforward, hreceived⟩ := h
  rw [startPulse, hforward, BatchTurn.finish, ← hreceived, ← receive_append]
  cases ending with
  | cancelled => rfl
  | ended result => exact congrArg (b.receive lastPulse) (List.append_assoc ..)

def PulseEnding.message : PulseEnding → String
  | .ended (.failed message) | .ended (.panicked message) => message
  | .cancelled | .ended .answered | .ended .aborted => ""

theorem onModelUpdate_ending (lastPulse : PulseTokens) (hformat : b.format = .jsonl) (ending : PulseEnding) :
    ∃ tokens rest, (b.onModelUpdate lastPulse ending.update).1.outputLines =
      b.outputLines ++ .pulse ((b.hear ending.message).turnRecord tokens) :: rest := by
  have complete : ∃ tokens rest, (b.onModelUpdate lastPulse .pulseComplete).1.outputLines =
      b.outputLines ++ .pulse ((b.hear "").turnRecord tokens) :: rest := by
    rw [b.hear_empty]
    exact ⟨lastPulse, finishRun_record hformat lastPulse .completed⟩
  have error (message : String) : ∃ tokens rest,
      (b.onModelUpdate lastPulse (.error message)).1.outputLines =
        b.outputLines ++ .pulse ((b.hear message).turnRecord tokens) :: rest :=
    ⟨{}, finishRun_record (b := b.hear message) hformat {} .failed⟩
  cases ending with
  | cancelled => exact complete
  | ended result =>
    cases result with
    | answered | aborted => exact complete
    | failed message | panicked message => exact error message

theorem delta?_ending (ending : PulseEnding) : ending.update.delta? = none := by
  cases ending with
  | cancelled => rfl
  | ended result => cases result <;> rfl

theorem BatchTurn.Sound.turnRecord (h : s.Sound b) (text : String) (tokens : PulseTokens) :
    s.batch.format = b.format ∧ s.batch.outputLines = b.outputLines ∧
      (s.batch.hear text).turnRecord tokens = {
        pulse := b.currentTurn + 1
        input := b.currentTurnInput
        response := Text.join "" s.deltas ++ text
        instructionsPath := b.instructionsPath
        changedFiles := s.batch.currentTurnChangedFiles
        commandHistory := s.batch.currentTurnCommandHistory
        tokens } := by
  have hfixed {α : Type} (field : BatchMode → α) : field s.batch.fixed = field b.fixed :=
    congrArg field h.fixed
  have hturn : s.batch.currentTurn = b.currentTurn := hfixed currentTurn
  have hinput : s.batch.currentTurnInput = b.currentTurnInput := hfixed currentTurnInput
  have hinstructions : s.batch.instructionsPath = b.instructionsPath :=
    hfixed instructionsPath
  refine ⟨hfixed format, hfixed outputLines, ?_⟩
  rw [← hturn, ← hinput, ← hinstructions, ← h.accurate.response]
  rfl

/-- An error that the stream reports ends the run with the record of the turn up to it. -/
theorem BatchTurn.Sound.streamError (h : s.Sound b) (hformat : b.format = .jsonl)
    {code message : String} {recoverable : Bool}
    (hstep : s.step? env lastPulse (.event (.signal (.error code message recoverable))) = some s') :
    s'.batch.done = true ∧ ∃ rest, s'.batch.outputLines = b.outputLines ++ .pulse {
      pulse := b.currentTurn + 1
      input := b.currentTurnInput
      response := Text.join "" s.deltas ++ ("stream error (" ++ code ++ "): " ++ message)
      instructionsPath := b.instructionsPath
      changedFiles := s.batch.currentTurnChangedFiles
      commandHistory := s.batch.currentTurnCommandHistory
      tokens := {} } :: rest := by
  generalize htext : "stream error (" ++ code ++ "): " ++ message = text
  have hbatch : s'.batch = (s.batch.hear text).finishRun {} .failed := by
    rw [BatchTurn.step?, Conversation.step] at hstep
    -- a signal is received while the model is streaming
    cases hphase : s.machine.phase with
    | streaming t r =>
      rw [hphase] at hstep
      have hadvance : advance env (.streaming t r) (.signal (.error code message recoverable))
          s.machine.manager =
          some (.streaming t r, [.update (.streamError text)], s.machine.manager) := by
        rw [← htext]
        rfl
      rw [hadvance] at hstep
      rw [← Option.some.inj hstep]
      rfl
    | _ =>
      rw [hphase] at hstep
      cases hstep
  obtain ⟨hsame, houtput, hrecord⟩ := h.turnRecord text {}
  obtain ⟨rest, hlines⟩ := finishRun_record (b := s.batch.hear text)
    (hsame.trans hformat) {} .failed
  refine ⟨?_, rest, ?_⟩
  · rw [hbatch]
    exact finishRun_done _ _ _
  · rw [hbatch, hlines, hrecord]
    show s.batch.outputLines ++ _ = _
    rw [houtput]

/-- The record that the end of a turn adds: what was received, and the text that was held back. -/
theorem BatchTurn.Sound.finish (h : s.Sound b) (hformat : b.format = .jsonl) (order : DrainOrder)
    (ending : PulseEnding) :
    ∃ tokens rest, (s.finish order lastPulse ending).outputLines = b.outputLines ++ .pulse {
      pulse := b.currentTurn + 1
      input := b.currentTurnInput
      response := Text.join "" (s.deltas ++ textDeltas (s.lastUpdates order ending)) ++ ending.message
      instructionsPath := b.instructionsPath
      changedFiles := s.batch.currentTurnChangedFiles
      commandHistory := s.batch.currentTurnCommandHistory
      tokens } :: rest := by
  have hblocks : ∃ blocks indices, s.lastUpdates order ending = blocks ++ [ending.update] ∧
      s.batch.receive lastPulse blocks =
        { s.batch.hear (Text.join "" (textDeltas blocks)) with currentTurnTextBlockIndices := indices } := by
    cases ending with
    | cancelled =>
      refine ⟨[], s.batch.currentTurnTextBlockIndices, rfl, ?_⟩
      show s.batch = { s.batch.hear "" with
        currentTurnTextBlockIndices := s.batch.currentTurnTextBlockIndices }
      rw [s.batch.hear_empty]
    | ended result =>
      have hkeys : (Assoc.keys (order.drain s.forwarder.textualBlockByIndex)).Perm
          (Assoc.keys s.forwarder.textualBlockByIndex) :=
        (order.perm s.forwarder.textualBlockByIndex).map _
      have hopen : ∀ index ∈ Assoc.keys (order.drain s.forwarder.textualBlockByIndex),
          index ∈ s.batch.currentTurnTextBlockIndices := by
        intro index hindex
        rw [h.coherent.openBlocks, ← h.coherent.forwarded]
        exact hkeys.mem_iff.mp hindex
      obtain ⟨indices, hreceive⟩ :=
        receive_finishBlocks lastPulse (hkeys.nodup_iff.mpr h.coherent.distinct) hopen
      exact ⟨_, indices, rfl, hreceive⟩
  obtain ⟨blocks, indices, hlast, hreceive⟩ := hblocks
  have hdeltas : textDeltas (s.lastUpdates order ending) = textDeltas blocks := by
    rw [hlast, textDeltas_append]
    show _ ++ [ending.update].filterMap UiUpdate.delta? = _
    rw [List.filterMap_cons, delta?_ending]
    exact List.append_nil _
  have hstate : s.finish order lastPulse ending =
      (({ s.batch.hear (Text.join "" (textDeltas blocks)) with
        currentTurnTextBlockIndices := indices } : BatchMode).onModelUpdate lastPulse ending.update).1 := by
    rw [BatchTurn.finish, hlast, receive_append, hreceive]
    rfl
  obtain ⟨hsame, houtput, -⟩ := h.turnRecord "" {}
  obtain ⟨tokens, rest, hlines⟩ := onModelUpdate_ending lastPulse
    (b := { s.batch.hear (Text.join "" (textDeltas blocks)) with currentTurnTextBlockIndices := indices })
    (hsame.trans hformat) ending
  obtain ⟨-, -, hrecord⟩ := h.turnRecord (Text.join "" (textDeltas blocks) ++ ending.message) tokens
  have hrecorded : (({ s.batch.hear (Text.join "" (textDeltas blocks)) with
      currentTurnTextBlockIndices := indices } : BatchMode).hear ending.message).turnRecord tokens =
      (s.batch.hear (Text.join "" (textDeltas blocks) ++ ending.message)).turnRecord tokens := by
    rw [← hear_hear]
    rfl
  refine ⟨tokens, rest, ?_⟩
  rw [hstate, hlines, hrecorded, hrecord, hdeltas, Text.join_empty_append, String.append_assoc]
  show s.batch.outputLines ++ _ = _
  rw [houtput]

/-- **The record of a turn** with faithful steps, wherever the turn is: the files are those of the calls
that succeeded, in order and each once, the commands are those of the results in their order, and the
response is the text deltas in their order.  The end of the pulse writes it down, with the text that was
held back and the error that has ended the pulse; so does an error that the stream reports, which ends
the run. -/
theorem record_matches (env : Environment) (lastPulse : PulseTokens) (batch b : BatchMode)
    (clearNotes : Except String Unit) (input started : String)
    (hstart : batch.onUserInput clearNotes input = (b, some started))
    (machine : Machine) (inputs : List TurnInput) (s : BatchTurn)
    (hrun : ({ machine, batch := b } : BatchTurn).run? env lastPulse inputs = some s)
    (hfaithful : FaithfulAlong env lastPulse { machine, batch := b } inputs) :
    s.Matches ∧ s.batch.currentTurnChangedFiles.Pairwise (· < ·) ∧
      (batch.format = .jsonl → ∀ (order : DrainOrder) (ending : PulseEnding), ∃ tokens rest,
        (b.receive lastPulse (startPulse env.codec order s.updates ending)).outputLines =
          batch.outputLines ++ .pulse {
            pulse := batch.currentTurn + 1
            input := input
            response :=
              Text.join "" (s.deltas ++ textDeltas (s.lastUpdates order ending)) ++ ending.message
            instructionsPath := batch.instructionsPath
            changedFiles := s.batch.currentTurnChangedFiles
            commandHistory := s.batch.currentTurnCommandHistory
            tokens } :: rest) ∧
      (batch.format = .jsonl → ∀ code message recoverable s',
        s.step? env lastPulse (.event (.signal (.error code message recoverable))) = some s' →
          s'.batch.done = true ∧ ∃ rest, s'.batch.outputLines = batch.outputLines ++ .pulse {
            pulse := batch.currentTurn + 1
            input := input
            response := Text.join "" s.deltas ++ ("stream error (" ++ code ++ "): " ++ message)
            instructionsPath := batch.instructionsPath
            changedFiles := s.batch.currentTurnChangedFiles
            commandHistory := s.batch.currentTurnCommandHistory
            tokens := {} } :: rest) := by
  obtain ⟨rfl, -⟩ := onUserInput_started hstart
  have hsound : s.Sound (batch.beginTurn input) :=
    (sound_beginTurn batch input machine).run hfaithful hrun
  refine ⟨hsound.accurate, hsound.sorted, fun hformat order ending => ?_,
    fun hformat code message recoverable s' hstep => hsound.streamError hformat hstep⟩
  have hbegun : BatchTurn.Sent env.codec lastPulse (batch.beginTurn input)
      { machine, batch := batch.beginTurn input } := ⟨[], rfl, rfl⟩
  rw [(hbegun.run hrun).finish]
  exact hsound.finish hformat order ending

end

/-! ### A file that is written -/

/-- The input of a call that writes the file `a`. -/
def writtenInput : Value := .object [("content", .string "x"), ("path", .string "a")]

def writingEnvironment : Environment :=
  { sampleEnvironment with
    codec := { sampleEnvironment.codec with
      toString := fun value =>
        if value = writtenInput then "\x7b\"content\":\"x\",\"path\":\"a\"\x7d".toList
        else if value = .object [] then "\x7b\x7d".toList
        else [] } }

/-- The stream reports the signals of a call of `write_file`; the call is allowed and run, and the model
says that it is done. -/
def writingEvents (signals : List RuntimeSignal) : List Event :=
  sampleRequest "write a" ++ .streamOpened :: signals.map .signal ++
    [.streamEnded, .tick, .tick, .approvalAnswered true,
      .toolFinished (.ok "Wrote a (1 chars, 1 lines)."), .tick, .tick, .streamOpened,
      .signal (.transcriptBlockStart 0 (.finalText "")), .signal (.transcriptBlockDelta 0 "Done."),
      .signal (.transcriptBlockComplete 0), .streamEnded, .tick]

def writingTurn (signals : List RuntimeSignal) : List TurnInput := (writingEvents signals).map .event

def startedWrite : List RuntimeSignal :=
  [.transcriptBlockStart 0 (.toolCall "t1" "write_file" writtenInput .pending),
    .toolCallStarted "t1" "write_file" writtenInput .pending "", .transcriptBlockComplete 0]

def streamedWrite : List RuntimeSignal :=
  [.transcriptBlockStart 0 (.toolCall "t1" "write_file" (.object []) .pending),
    .toolCallStarted "t1" "write_file" (.object []) .pending "",
    .toolCallArgumentsDelta "t1" none "\x7b\"content\":\"x\",\"path\":\"a\"\x7d" .pending
      (some writtenInput) false,
    .transcriptBlockComplete 0]

def sampleBatch : BatchMode := { taskId := "t" }

def writingStart : BatchTurn := { machine := {}, batch := sampleBatch.beginTurn "write a" }

/-- A call that is started with its arguments is recorded with the file that it has written. -/
theorem record_matches_sample :
    ∃ s, sampleBatch.onUserInput (.ok ()) "write a" = (writingStart.batch, some "write a") ∧
      writingStart.run? writingEnvironment {} (writingTurn startedWrite) = some s ∧
      s.batch.currentTurnChangedFiles = ["a"] ∧ s.batch.currentResponse = "Done." ∧ s.Matches := by
  have hstart : sampleBatch.onUserInput (.ok ()) "write a" =
      (writingStart.batch, some "write a") := by decide +kernel
  have hwritten : (writingStart.run? writingEnvironment {} (writingTurn startedWrite)).any (fun s =>
      s.batch.currentTurnChangedFiles = ["a"] ∧ s.batch.currentResponse = "Done.") = true := by
    decide +kernel
  have hfaithful : FaithfulAlong writingEnvironment {} writingStart (writingTurn startedWrite) := by
    decide +kernel
  obtain ⟨s, hrun, hresult⟩ := (Option.any_eq_true _ _).mp hwritten
  obtain ⟨hfiles, hresponse⟩ := of_decide_eq_true hresult
  have hrecord := record_matches writingEnvironment {} sampleBatch _ (.ok ()) "write a" "write a" hstart
    {} (writingTurn startedWrite) s hrun hfaithful
  exact ⟨s, hstart, hrun, hfiles, hresponse, hrecord.1⟩

/-- The call has written the file `a`, and the record of the turn names no file: the block of the call is
shown with the input of its start only. -/
theorem streamed_path_is_missing :
    ∃ s call record rest,
      sampleBatch.onUserInput (.ok ()) "write a" = (writingStart.batch, some "write a") ∧
      writingStart.run? writingEnvironment {} (writingTurn streamedWrite) = some s ∧
      (call, false) ∈ s.results ∧ "a" ∈ executedPaths call.name call.input ∧ ¬ s.Matches ∧
      (writingStart.batch.receive {} (startPulse writingEnvironment.codec ⟨id, fun _ => .refl _⟩
        s.updates (.ended .answered))).outputLines = .pulse record :: rest ∧
      "a" ∉ record.changedFiles := by
  have hstart : sampleBatch.onUserInput (.ok ()) "write a" =
      (writingStart.batch, some "write a") := by decide +kernel
  have hwritten : (writingStart.run? writingEnvironment {} (writingTurn streamedWrite)).any (fun s =>
      s.results = [(⟨"t1", "write_file", writtenInput⟩, false)] ∧
      s.batch.currentTurnChangedFiles = [] ∧
      (writingStart.batch.receive {} (startPulse writingEnvironment.codec ⟨id, fun _ => .refl _⟩
        s.updates (.ended .answered))).outputLines.head?.any fun line =>
          match line with
          | .pulse record => record.changedFiles = []
          | _ => false) = true := by
    decide +kernel
  obtain ⟨s, hrun, hresult⟩ := (Option.any_eq_true _ _).mp hwritten
  obtain ⟨hresults, hfiles, hlines⟩ := of_decide_eq_true hresult
  obtain ⟨line, hline, hrecord⟩ := (Option.any_eq_true _ _).mp hlines
  obtain ⟨rest, hrest⟩ := List.head?_eq_some_iff.mp hline
  have hcall : (⟨"t1", "write_file", writtenInput⟩, false) ∈ s.results := by
    rw [hresults]
    exact List.mem_singleton_self _
  have hpath : "a" ∈ executedPaths "write_file" writtenInput := by decide +kernel
  have hmissing : ¬ s.Matches := by
    intro hmatches
    have hlisted := (hmatches.changedFiles "a").mpr ⟨_, hcall, hpath⟩
    rw [hfiles] at hlisted
    exact List.not_mem_nil hlisted
  cases line with
  | pulse record =>
    refine ⟨s, _, record, rest, hstart, hrun, hcall, hpath, hmissing, hrest, ?_⟩
    have hnone : record.changedFiles = [] := of_decide_eq_true hrecord
    rw [hnone]
    exact List.not_mem_nil
  | _ => cases hrecord

end Vexcoder.App

import Vexcoder.App.TuiMode
import Vexcoder.Conversation.SendMessage

/-!
# The updates of the terminal interface are handled

`on_model_update` handles every update of the interface.  It can panic in one place only: a transcript
line that is longer than 512 bytes is cut at byte 512, whether a character ends there or not.
-/

namespace Vexcoder.App

open Base Lib Lib.Assoc Vexcoder.Runtime Vexcoder.Task

namespace TuiMode

variable (host : Host)

/-! ### Blocks and calls -/

/-- `block_index` of a block that was made for text outside blocks. -/
def usizeMax : ℕ := u64Max

def noteFirstToken (mode : TuiMode) : TuiMode :=
  match mode.ttft, mode.turnStartedAt with
  | none, some started =>
    { mode with ttft := some (host.elapsed 0 started) }.modifyActive fun active =>
      { active with ttftMs := some (min (host.elapsed 1 started / 10 ^ 6) u64Max) }
  | _, _ => mode

def blockEntry (p : AssistantBlockEntry → Bool) : PulseEntry → Bool
  | .assistantBlock _ block => p block
  | _ => false

def changeBlock (p : AssistantBlockEntry → Bool) (f : AssistantBlockEntry → AssistantBlockEntry) :
    PulseEntry → Option PulseEntry
  | .assistantBlock stepId block => if p block then some (.assistantBlock stepId (f block)) else none
  | _ => none

def pushStr (text : String) (block : AssistantBlockEntry) : AssistantBlockEntry :=
  { block with content := block.content ++ text }

def isStreamingFinal (block : AssistantBlockEntry) : Bool :=
  block.streaming && block.phase = .final

/-- Text outside blocks goes to the last final block that is streaming, or to a new one. -/
def appendFinalText (mode : TuiMode) (text : String) : TuiMode :=
  if mode.taskDoc.activePulse.any fun active => active.entries.any (blockEntry isStreamingFinal) then
    mode.modifyActive fun active =>
      { active with
        entries := (updateFirst (changeBlock isStreamingFinal (pushStr text))
          active.entries.reverse).reverse }
  else if mode.taskDoc.activePulse.isSome then
    mode.appendStep fun stepId => .assistantBlock stepId
      { blockIndex := usizeMax, phase := .final, content := text, collapsed := false,
        streaming := true }
  else mode

def onStreamDelta (mode : TuiMode) (text : String) : Option TuiMode := do
  let previousOutputLen ← mode.expandedOutputRowCount host
  if mode.cancelPending then some mode
  else if mode.streamUsesStructuredFinalOutput then some mode
  else
    let mode := (mode.markRunning.noteFirstToken host).appendFinalText text
    let mode ← mode.clampTranscriptAfterMutation host
    mode.preserveTranscriptScrollOnGrowth host previousOutputLen

/-- A block that starts again at the end of the turn is used on; another one is appended. -/
def startBlock (mode : TuiMode) (isSame : AssistantBlockEntry → Bool)
    (started : AssistantBlockEntry) : TuiMode :=
  let last := mode.taskDoc.activePulse.bind fun active => active.entries.getLast?
  if last.any (blockEntry isSame) then
    mode.modifyActive fun active =>
      { active with
        entries := (updateFirst (changeBlock isSame fun block =>
          { started with
            content := if Text.isEmpty started.content then block.content else started.content })
          active.entries.reverse).reverse }
  else mode.appendStep fun stepId => .assistantBlock stepId started

def startFinalText (mode : TuiMode) (index : ℕ) (content : String) : TuiMode :=
  let mode : TuiMode := { mode with streamUsesStructuredFinalOutput := true }
  (mode.noteFirstToken host).startBlock
    (fun block => block.blockIndex == index ||
      (block.blockIndex == usizeMax && block.phase == .final))
    { blockIndex := index, phase := .final, content, collapsed := false, streaming := true }

def startThinking (mode : TuiMode) (index : ℕ) (content : String) (collapsed : Bool) : TuiMode :=
  mode.startBlock (fun block => block.blockIndex == index)
    { blockIndex := index, phase := .thinking, content, collapsed, streaming := true }

def startToolCall (mode : TuiMode) (id name : String) (input : Value) (status : ToolStatus) : TuiMode :=
  if mode.taskDoc.activePulse.any (hasCall id) then mode.modifyActive (setCallStatus id status)
  else
    let mode := mode.appendStep fun stepId => .toolCall stepId id name input .pending
    if mode.timelineFollowMode then
      { mode with
        selectedTimelineIndex := mode.timelineEntryCount - 1, inspectorScrollOffset := 0 }
    else mode

def callNameAndInput (toolCallId : String) (active : ActiveTurnDocument) : Option (String × Value) :=
  active.entries.reverse.findSome? fun entry =>
    match entry with
    | .toolCall _ id name input _ => if id = toolCallId then some (name, input) else none
    | _ => none

def noteChangedFiles (mode : TuiMode) (toolCallId : String) : TuiMode :=
  match mode.taskDoc.activePulse.bind (callNameAndInput toolCallId) with
  | none => mode
  | some (name, input) =>
    let changed := Tools.changedFilesOf name input
    if changed.isEmpty then mode
    else
      { mode with filePromptEntries := none }.modifyActive fun active =>
        { active with
          changedFiles := changed.foldl (fun files path => insertElem path files) active.changedFiles }

def recordToolResult (mode : TuiMode) (toolCallId output : String) (isError : Bool) : TuiMode :=
  let mode := mode.modifyActive (setCallStatus toolCallId (if isError then .error else .complete))
  let mode := if isError then mode else mode.noteChangedFiles toolCallId
  mode.appendStep fun stepId => .toolResult stepId toolCallId none output isError

def onStreamBlockStart (mode : TuiMode) (index : ℕ) (block : StreamBlock) : Option TuiMode := do
  let mode := mode.markRunning
  let previousOutputLen ← mode.expandedOutputRowCount host
  let mode := match block with
    | .finalText content => mode.startFinalText host index content
    | .thinking content collapsed => mode.startThinking index content collapsed
    | .toolCall id name input status => mode.startToolCall id name input status
    | .toolResult toolCallId output isError => mode.recordToolResult toolCallId output isError
  let mode ← mode.clampTranscriptAfterMutation host
  mode.preserveTranscriptScrollOnGrowth host previousOutputLen

def onStreamBlockDelta (mode : TuiMode) (index : ℕ) (delta : String) : Option TuiMode :=
  let isIndex (block : AssistantBlockEntry) : Bool := block.blockIndex = index
  let appended := mode.taskDoc.activePulse.any fun active => active.entries.any (blockEntry isIndex)
  let mode := mode.modifyActive (updateBlockContent index (pushStr delta))
  { mode with
    streamUsesStructuredFinalOutput :=
      mode.streamUsesStructuredFinalOutput || appended }.clampTranscriptAfterMutation host

/-- The last call with the id is given the arguments, and the name when there is one. -/
def updateArguments (mode : TuiMode) (toolCallId : String) (toolName : Option String)
    (arguments : Value) : TuiMode :=
  mode.modifyActive fun active =>
    { active with
      entries := (updateFirst (fun entry =>
        match entry with
        | .toolCall stepId id name _ status =>
          if id = toolCallId then some (.toolCall stepId id (toolName.getD name) arguments status)
          else none
        | _ => none) active.entries.reverse).reverse }

def onToolCallArgumentsUpdated (mode : TuiMode) (toolCallId : String) (toolName : Option String)
    (arguments : Value) : Option TuiMode := do
  let previousOutputLen ← mode.expandedOutputRowCount host
  let mode ← (mode.updateArguments toolCallId toolName arguments).clampTranscriptAfterMutation host
  mode.preserveTranscriptScrollOnGrowth host previousOutputLen

def onServerMetadata (mode : TuiMode) (metadata : StreamChunkMetadata) : TuiMode :=
  if mode.cancelPending then mode
  else
    mode.modifyActive fun active =>
      { active with
        promptProgress := metadata.promptProgress.or active.promptProgress
        timings := metadata.timings.or active.timings }

/-! ### Approvals -/

def autoApprove (mode : TuiMode) (request : ℕ) (asked : ToolApprovalRequest) (reason : String) :
    TuiMode :=
  let stepId := mode.pendingToolStepId host.env asked.toolName asked.inputPreview
  ((mode.markToolStepApproved stepId).answer request true).pushDocumentNotice
    s!"[approval] {asked.toolName} auto-approved {reason}" .info

def activeGrant (mode : TuiMode) (toolName : String) : Option (Capability × ApprovalScope) := do
  let capability ← capabilityForToolName toolName
  let scope ← find? capability mode.taskDoc.info.activeGrants
  some (capability, scope)

def useGrant (mode : TuiMode) (capability : Capability) (scope : ApprovalScope) : TuiMode :=
  if scope = .once then
    mode.setDoc { mode.taskDoc with
      info := { mode.taskDoc.info with
        activeGrants := erase capability mode.taskDoc.info.activeGrants } }
  else mode

def showApproval (mode : TuiMode) (request : ℕ) (asked : ToolApprovalRequest) : Option TuiMode := do
  let summary := summarizeToolApprovalContext asked.toolName asked.inputPreview
  let stepId := mode.pendingToolStepId host.env asked.toolName asked.inputPreview
  let previousOutputLen ← mode.expandedOutputRowCount host
  let mode := mode.pushDocumentNotice s!"[approval] {summary} · awaiting approval" .info
  let compact ← compactPreviewText asked.inputPreview
  let mode :=
    if Text.isEmpty compact then mode
    else mode.pushDocumentNotice s!"[approval_detail] Input: {compact}" .info
  let mode ← mode.preserveTranscriptScrollOnGrowth host previousOutputLen
  let pending : PendingApproval :=
    { stepId, toolName := asked.toolName, inputPreview := asked.inputPreview, action := .tool request }
  some ({ mode with
    overlayState := { mode.overlayState with
      pendingApproval := some pending } }.setTaskStatus .awaitingApproval)

def onToolApprovalRequest (mode : TuiMode) (asked : ToolApprovalRequest) : Option TuiMode :=
  let request := mode.requests
  let mode := { mode with requests := mode.requests + 1 }
  if mode.cancelPending then some (mode.answer request false)
  else
    let mode := mode.denyPendingApproval.denyPendingPatchApproval
    if mode.readOnlyTurnActive then some (mode.answer request false)
    else if mode.overlayState.autoApproveSession then
      some (mode.autoApprove host request asked "for session")
    else
      match mode.activeGrant asked.toolName with
      | some (capability, scope) =>
        some ((mode.useGrant capability scope).autoApprove host request asked
          s!"via {scopeToLabel scope} grant")
      | none => mode.showApproval host request asked

/-! ### The ends of turns -/

def editLoopNotice : EditLoopOutcome → String × NoticeSeverity
  | .success patchApplied validatePassed =>
    (s!"[edit loop complete: patch_applied={patchApplied} validate_passed={validatePassed}]", .info)
  | .maxTurnsReached (some e) => (s!"[edit loop reached max pulses — last error: {e}]", .warning)
  | .maxTurnsReached none => ("[edit loop reached max pulses]", .warning)
  | .approvalDenied => ("[edit loop aborted: approval denied]", .warning)
  | .cancelled => ("[edit loop cancelled]", .info)

def editLoopPulseOutcome : EditLoopOutcome → PulseOutcome
  | .success .. => .completed
  | .maxTurnsReached _ => .maxTurnsReached
  | .approvalDenied | .cancelled => .cancelled

def finishEditTurn (mode : TuiMode) (outcome : EditLoopOutcome) : TuiMode :=
  if mode.taskDoc.activePulse.isSome then
    let mode := mode.finishTurn host (editLoopPulseOutcome outcome)
    let mode := match outcome with
      | .success .. => mode.setTaskStatus .completed
      | _ => mode
    mode.resetTurnCapture
  else mode

def clearCommandSessions (mode : TuiMode) : TuiMode :=
  mode.modifyActive fun t => { t with commandSessions := [] }

def onEditLoopComplete (mode : TuiMode) (outcome : EditLoopOutcome)
    (lastValidationResult : Option ValidationResult) : Option TuiMode := do
  let mode : TuiMode := { mode.clearCommandSessions with
    lastErrorMessage := none
    activeEditLoop := mode.activeEditLoop.map fun editLoop =>
      editLoop.noteValidationResult lastValidationResult }
  let mode := mode.denyPendingApproval.denyPendingPatchApproval.modifyActive fun active =>
    { active with cancelPending := false }
  let (message, severity) := editLoopNotice outcome
  let mode := mode.pushDocumentNotice message severity
  let mode := { mode with
    lastTurnDuration := mode.elapsedSinceStart host 0, lastTurnTtft := mode.ttft }
  let mode := (mode.appendTurnTimingLine host).finishEditTurn host outcome
  let mode ← mode.clampTranscriptAfterMutation host
  some { mode with
    transcriptScrollOffset := 0, inspectorScrollOffset := 0, readOnlyTurnActive := false
    turnCompletionPending := false }

def onError (mode : TuiMode) (message : String) : TuiMode :=
  let mode := mode.clearCommandSessions.denyPendingApproval.denyPendingPatchApproval
  let mode := { mode with
    lastTurnDuration := mode.elapsedSinceStart host 0, lastErrorMessage := some message }
  let mode := (mode.pushDocumentNotice message .error).modifyActive fun active =>
    { active with cancelPending := false }
  let mode := { mode with
    readOnlyTurnActive := false, transcriptScrollOffset := 0, inspectorScrollOffset := 0 }
  let mode := (mode.finishTurn host (.failed message)).setTaskStatus .failed
  { mode with turnCompletionPending := false }.resetTurnCapture

/-! ### The update -/

def onTranscriptLine (mode : TuiMode) (line : String) : Option TuiMode := do
  let previousOutputLen ← mode.expandedOutputRowCount host
  let clipped ← clipTranscriptLine line
  (mode.markRunning.pushDocumentNotice clipped .info).preserveTranscriptScrollOnGrowth host previousOutputLen

def modifySession (mode : TuiMode) (sessionId : ℕ)
    (f : CommandSessionDocument → CommandSessionDocument) : TuiMode :=
  mode.modifyActive fun t =>
    { t with commandSessions := t.commandSessions.map fun (id, session) =>
        (id, if id = sessionId then f session else session) }

def onModelUpdate (mode : TuiMode) : UiUpdate → Option TuiMode
  | .transcriptLine line => mode.onTranscriptLine host line
  | .streamDelta text => mode.onStreamDelta host text
  | .serverMetadata metadata => some (mode.onServerMetadata metadata)
  | .streamBlockStart index block => mode.onStreamBlockStart host index block
  | .streamBlockDelta index delta => mode.onStreamBlockDelta host index delta
  | .toolCallArgumentsUpdated toolCallId toolName arguments =>
    mode.onToolCallArgumentsUpdated host toolCallId toolName arguments
  | .streamBlockComplete index =>
    some (mode.modifyActive (updateBlockContent index fun block => { block with streaming := false }))
  | .toolApprovalRequest request => mode.onToolApprovalRequest host request
  | .editLoopComplete outcome lastValidationResult =>
    mode.onEditLoopComplete host outcome lastValidationResult
  | .commandSessionStarted sessionId command => some (mode.beginCommandSessionWithId sessionId command)
  | .commandSessionAttached sessionId pid =>
    some (mode.modifySession sessionId fun session => { session with pid })
  | .commandSessionFinished sessionId =>
    some ((mode.modifyActive fun active =>
      { active with
        commandSessions := erase sessionId active.commandSessions }).completeTurnIfIdle host)
  | .pulseComplete => some ({ mode with turnCompletionPending := true }.completeTurnIfIdle host)
  | .contextCompacted messagesBefore messagesAfter summary =>
    some { mode with
      contextCompaction := mode.contextCompaction ++ [{
        turnIndex := mode.taskDoc.completedTurns.length, messagesBefore, messagesAfter, summary }] }
  | .error message => some (mode.onError host message)

/-! ### Completion -/

variable {mode' : TuiMode} (mode : TuiMode) (update : UiUpdate)

theorem onStreamDelta_completes (text : String) : Completes (mode.onStreamDelta host text) := by
  refine .bind (expandedOutputRowCount_completes host mode) fun previousOutputLen => ?_
  refine .ite (.pure _) (.ite (.pure _) ?_)
  refine .bind (clampTranscriptAfterMutation_completes host _) fun mode' => ?_
  exact preserveTranscriptScrollOnGrowth_completes host mode' _

theorem onStreamBlockStart_completes (index : ℕ) (block : StreamBlock) :
    Completes (mode.onStreamBlockStart host index block) := by
  refine .bind (expandedOutputRowCount_completes host _) fun previousOutputLen => ?_
  refine .bind (clampTranscriptAfterMutation_completes host _) fun mode' => ?_
  exact preserveTranscriptScrollOnGrowth_completes host mode' _

theorem onToolCallArgumentsUpdated_completes (toolCallId : String) (toolName : Option String)
    (arguments : Value) :
    Completes (mode.onToolCallArgumentsUpdated host toolCallId toolName arguments) := by
  refine .bind (expandedOutputRowCount_completes host mode) fun previousOutputLen => ?_
  refine .bind (clampTranscriptAfterMutation_completes host _) fun mode' => ?_
  exact preserveTranscriptScrollOnGrowth_completes host mode' _

/-- The compact preview of a request is cut at the end of a character. -/
theorem showApproval_completes (request : ℕ) (asked : ToolApprovalRequest) :
    Completes (mode.showApproval host request asked) := by
  refine .bind (expandedOutputRowCount_completes host mode) fun previousOutputLen => ?_
  refine .bind (compactPreviewText_completes _) fun compact => ?_
  exact .bind (preserveTranscriptScrollOnGrowth_completes host _ _) fun mode' => .pure _

theorem onToolApprovalRequest_completes (asked : ToolApprovalRequest) :
    Completes (mode.onToolApprovalRequest host asked) := by
  refine .ite (.pure _) (.ite (.pure _) (.ite (.pure _) ?_))
  cases activeGrant _ asked.toolName with
  | some grant => exact .pure _
  | none => exact showApproval_completes host _ _ asked

theorem onEditLoopComplete_completes (outcome : EditLoopOutcome)
    (lastValidationResult : Option ValidationResult) :
    Completes (mode.onEditLoopComplete host outcome lastValidationResult) :=
  .bind (clampTranscriptAfterMutation_completes host _) fun _ => .pure _

/-- **Every update but a transcript line is handled in every state.** -/
theorem onModelUpdate_completes (h : ∀ line, update ≠ .transcriptLine line) :
    Completes (mode.onModelUpdate host update) := by
  cases update with
  | transcriptLine line => exact absurd rfl (h line)
  | streamDelta text => exact onStreamDelta_completes host mode text
  | streamBlockStart index block => exact onStreamBlockStart_completes host mode index block
  | streamBlockDelta index delta => exact clampTranscriptAfterMutation_completes host _
  | toolCallArgumentsUpdated toolCallId toolName arguments =>
    exact onToolCallArgumentsUpdated_completes host mode toolCallId toolName arguments
  | toolApprovalRequest request => exact onToolApprovalRequest_completes host mode request
  | editLoopComplete outcome lastValidationResult =>
    exact onEditLoopComplete_completes host mode outcome lastValidationResult
  | serverMetadata | streamBlockComplete | commandSessionStarted | commandSessionAttached
  | commandSessionFinished | pulseComplete | contextCompacted | error => exact .pure _

/-! ### The notice of a line -/

/-- The notice is the last entry of the active turn, or the last one from before the first turn; nothing
else of either is changed. -/
def Noticed (mode mode' : TuiMode) (message : String) : Prop :=
  match mode.taskDoc.activePulse with
  | some active =>
    mode'.taskDoc.activePulse = some { active with
        entries := active.entries ++ [.systemNotice mode.taskDoc.info.nextStepId message .info] } ∧
      mode'.preSessionNotices = mode.preSessionNotices
  | none =>
    mode'.taskDoc.activePulse = none ∧ mode'.preSessionNotices = mode.preSessionNotices ++ [message]

theorem noticed_pushDocumentNotice (message : String) :
    Noticed mode (mode.markRunning.pushDocumentNotice message .info) message := by
  unfold Noticed markRunning pushDocumentNotice
  cases hactive : mode.taskDoc.activePulse with
  | none => simp [hactive]
  | some active =>
    simp [hactive, setTaskStatus, setDoc, TaskDocument.setStatus, appendStep, modifyActive]

theorem Noticed.preserve {mode mode'' : TuiMode} {message : String} {rows : ℕ}
    (h : Noticed mode mode' message)
    (hpreserve : mode'.preserveTranscriptScrollOnGrowth host rows = some mode'') :
    Noticed mode mode'' message := by
  unfold preserveTranscriptScrollOnGrowth at hpreserve
  split at hpreserve
  · obtain rfl := Option.some.inj hpreserve
    exact h
  · obtain ⟨view, -, hmode⟩ := Option.bind_eq_some_iff.mp hpreserve
    obtain rfl := Option.some.inj hmode
    exact h

theorem Noticed.unique {mode : TuiMode} {message message' : String} (h : Noticed mode mode' message)
    (h' : Noticed mode mode' message') : message = message' := by
  unfold Noticed at h h'
  cases hactive : mode.taskDoc.activePulse with
  | none =>
    rw [hactive] at h h'
    have hsame := h.2.symm.trans h'.2
    simpa using hsame
  | some active =>
    rw [hactive] at h h'
    have hsame := h.1.symm.trans h'.1
    simpa using hsame

/-- A line is handled when its clip is made, and the notice is the clip. -/
theorem onTranscriptLine_eq_some {mode : TuiMode} {line : String}
    (h : mode.onTranscriptLine host line = some mode') :
    ∃ clipped, clipTranscriptLine line = some clipped ∧ Noticed mode mode' clipped := by
  obtain ⟨previousOutputLen, -, hrest⟩ := Option.bind_eq_some_iff.mp h
  obtain ⟨clipped, hclip, hpreserve⟩ := Option.bind_eq_some_iff.mp hrest
  exact ⟨clipped, hclip, (noticed_pushDocumentNotice mode clipped).preserve host hpreserve⟩

theorem onTranscriptLine_completes {line : String} (h : Completes (clipTranscriptLine line)) :
    Completes (mode.onTranscriptLine host line) := by
  refine .bind (expandedOutputRowCount_completes host mode) fun previousOutputLen => ?_
  exact .bind h fun clipped => preserveTranscriptScrollOnGrowth_completes host _ _

/-! ### Which updates are handled -/

/-- The update is handled, and the notice of a line is a prefix of the line with a count of the rest. -/
def Handled (count : List Char → ℕ) (mode : TuiMode) (update : UiUpdate) : Prop :=
  ∃ mode', mode.onModelUpdate host update = some mode' ∧
    ∀ line, update = .transcriptLine line → ∃ clipped, Clipped count line clipped ∧ Noticed mode mode' clipped

def CutBetweenChars : UiUpdate → Prop
  | .transcriptLine line =>
    byteLen line.toList ≤ maxTranscriptLineChars ∨ isCharBoundary maxTranscriptLineChars line.toList = true
  | _ => True

/-- The characters of a line behind byte 512 have one byte each. -/
def RestOneByte : UiUpdate → Prop
  | .transcriptLine line =>
    ∀ kept omitted, line.toList = kept ++ omitted → byteLen kept = maxTranscriptLineChars →
      ∀ c ∈ omitted, c.utf8Size = 1
  | _ => True

theorem handled_transcriptLine_iff (count : List Char → ℕ) (mode : TuiMode) (line : String) :
    Handled host count mode (.transcriptLine line) ↔
      ∃ clipped, clipTranscriptLine line = some clipped ∧ Clipped count line clipped := by
  constructor
  · rintro ⟨mode', hupdate, hline⟩
    obtain ⟨clipped, hclip, hnoticed⟩ := onTranscriptLine_eq_some host hupdate
    obtain ⟨clipped', hclipped, hnoticed'⟩ := hline line rfl
    rw [hnoticed'.unique hnoticed] at hclipped
    exact ⟨clipped, hclip, hclipped⟩
  · rintro ⟨clipped, hclip, hclipped⟩
    obtain ⟨mode', hupdate⟩ := onTranscriptLine_completes host mode ⟨clipped, hclip⟩
    refine ⟨mode', hupdate, fun line' heq => ?_⟩
    obtain rfl := UiUpdate.transcriptLine.inj heq
    obtain ⟨clipped', hclip', hnoticed⟩ := onTranscriptLine_eq_some host hupdate
    obtain rfl := Option.some.inj (hclip.symm.trans hclip')
    exact ⟨clipped, hclipped, hnoticed⟩

theorem handled_of_not_line (count : List Char → ℕ) (mode : TuiMode) {update : UiUpdate}
    (h : ∀ line, update ≠ .transcriptLine line) : Handled host count mode update := by
  obtain ⟨mode', hupdate⟩ := onModelUpdate_completes host mode update h
  exact ⟨mode', hupdate, fun line heq => absurd heq (h line)⟩

theorem handled_bytes_iff : Handled host byteLen mode update ↔ CutBetweenChars update := by
  cases update with
  | transcriptLine line =>
    rw [handled_transcriptLine_iff, clipTranscriptLine_clipped_iff, CutBetweenChars, isCharBoundary_iff]
    simp only [and_true]
  | _ => exact iff_of_true (handled_of_not_line host byteLen mode fun line h => by cases h) trivial

theorem handled_chars_iff :
    Handled host List.length mode update ↔ CutBetweenChars update ∧ RestOneByte update := by
  cases update with
  | transcriptLine line =>
    rw [handled_transcriptLine_iff, clipTranscriptLine_clipped_iff, CutBetweenChars, isCharBoundary_iff]
    constructor
    · rintro (hshort | ⟨kept, omitted, hline, hlen, hcount⟩)
      · refine ⟨.inl hshort, fun kept omitted hline hlen => ?_⟩
        rw [hline, byteLen_append] at hshort
        obtain rfl := (byteLen_eq_zero_iff omitted).mp (by omega)
        exact List.forall_mem_nil _
      · refine ⟨.inr ⟨kept, omitted, hline, hlen⟩, fun kept' omitted' hline' hlen' => ?_⟩
        obtain ⟨-, rfl⟩ := Offsets.prefix_unique utf8Size_pos (hline.symm.trans hline')
          (hlen.trans hlen'.symm)
        exact (length_eq_byteLen_iff omitted).mp hcount
    · rintro ⟨hshort | ⟨kept, omitted, hline, hlen⟩, hrest⟩
      · exact .inl hshort
      · refine .inr ⟨kept, omitted, hline, hlen, ?_⟩
        exact (length_eq_byteLen_iff omitted).mpr (hrest kept omitted hline hlen)
  | _ =>
    exact iff_of_true (handled_of_not_line host _ mode fun line h => by cases h) ⟨trivial, trivial⟩

theorem onModelUpdate_completes_iff :
    Completes (mode.onModelUpdate host update) ↔ CutBetweenChars update := by
  constructor
  · intro h
    cases update with
    | transcriptLine line =>
      obtain ⟨mode', hupdate⟩ := h
      obtain ⟨clipped, hclip, -⟩ := onTranscriptLine_eq_some host hupdate
      exact (clipTranscriptLine_completes_iff line).mp ⟨clipped, hclip⟩
    | _ => trivial
  · intro h
    obtain ⟨mode', hupdate, -⟩ := (handled_bytes_iff host mode update).mpr h
    exact ⟨mode', hupdate⟩

/-- **Which updates are handled.**  In every state an update is handled unless it is a transcript line
with a character that byte 512 lies inside of.  The line that is shown is then a prefix with the number
of the bytes behind it, which is the number of the characters behind it when each of them has one
byte. -/
theorem onModelUpdate_handled_iff (mode : TuiMode) (update : UiUpdate) :
    (Completes (mode.onModelUpdate host update) ↔ CutBetweenChars update) ∧
      (Handled host byteLen mode update ↔ CutBetweenChars update) ∧
      (Handled host List.length mode update ↔ CutBetweenChars update ∧ RestOneByte update) :=
  ⟨onModelUpdate_completes_iff host mode update, handled_bytes_iff host mode update,
    handled_chars_iff host mode update⟩

/-! ### A line that is not handled -/

def sampleMode : TuiMode :=
  { displayColumnWidth := 80, taskDoc := .beginTask {}, autoMemoryEnabled := false
    autoMemoryMaxNotes := 0 }

def sampleHost : Host where
  env := Conversation.sampleEnvironment
  disp := {
    charDisplayWidth := fun _ => 1
    graphemes := fun text => text.toList.map fun c => String.ofList [c]
    strWidth := fun text => text.toList.length
    wrap := fun text _ => [text]
    intoText := fun text => some [[text]] }
  elapsed := fun _ _ => 0
  nowMillis := 0
  lastPulse := {}
  formatSeconds := fun _ => "0.0"
  formatThousandth := fun _ => "0.0"
  isAlphanumeric := Char.isAlphanum
  timestampSeconds := 0
  notesPath := none
  appendFeedbackNotes := fun _ _ => .ok ()

def wideLine : String := String.ofList (List.replicate 511 'a' ++ ['é'])

/-- **A transcript line makes the interface panic** when byte 512 lies inside a character. -/
theorem wide_character_panics :
    sampleMode.onModelUpdate sampleHost (.transcriptLine wideLine) = none := by
  cases hupdate : sampleMode.onModelUpdate sampleHost (.transcriptLine wideLine) with
  | none => rfl
  | some mode' =>
    obtain ⟨clipped, hclip, -⟩ := onTranscriptLine_eq_some sampleHost hupdate
    have hcut := (clipTranscriptLine_completes_iff wideLine).mp ⟨clipped, hclip⟩
    have hline : wideLine.toList = List.replicate 511 'a' ++ ['é'] := String.toList_ofList
    have hfront : byteLen (List.replicate 511 'a') = 511 := byteLen_replicate 511 'a'
    have hmax : maxTranscriptLineChars = 511 + 1 := rfl
    rw [hline] at hcut
    generalize List.replicate 511 'a' = front at hfront hcut
    have hinside := isCharBoundary_inside front [] Nat.one_pos (show 1 < 'é'.utf8Size by decide)
    rw [hfront] at hinside
    rw [hmax, byteLen_append, hfront, hinside] at hcut
    exact absurd hcut (by decide)

end TuiMode

end Vexcoder.App

import Vexcoder.App.RowExpansion
import Vexcoder.App.Update
import Vexcoder.Task.Condenser
import Vexcoder.Tools.Evidence

/-!
# The terminal interface

The state of `TuiMode` that updates read and write, what it shows of the transcript, and the helpers that
the handling of an update calls.  The scroll offset follows the number of the rows that are shown, so
nearly every update has the transcript made and expanded anew.

What is written to the disk (`persist_task_document`, `write_working_set_sidecar`) is not part of the
state, and when it fails a line is printed.  An answer to a request for approval is recorded under the
number of the request.
-/

namespace Vexcoder.App

open Base Lib Lib.Assoc Vexcoder.Runtime Conversation
open Vexcoder.Task

inductive PendingApprovalAction where
  | tool (request : ℕ)
  | inlineCommand (command : String)

structure PendingApproval where
  stepId : Option ℕ
  toolName : String
  inputPreview : String
  action : PendingApprovalAction

structure PendingPatchApproval where
  patchPreview : String
  scrollOffset : ℕ
  request : Option ℕ

structure OverlayState where
  pendingApproval : Option PendingApproval := none
  pendingPatchApproval : Option PendingPatchApproval := none
  approvedToolSteps : List ℕ := []
  autoApproveSession : Bool := false

inductive OutputScrollAnchor where
  | top
  | bottom
  deriving DecidableEq

/-- The validation result is what an update writes of an `EditLoop`. -/
structure EditLoop where
  lastValidationResult : Option ValidationResult := none

/-- `set_last_validation_result`, when there is a result. -/
def EditLoop.noteValidationResult (editLoop : EditLoop) : Option ValidationResult → EditLoop
  | some result => { editLoop with lastValidationResult := some result }
  | none => editLoop

/-- Instants and durations are in nanoseconds.  The compactions and the notes of the session are fields
of the task document in the program. -/
structure TuiMode where
  overlayState : OverlayState := {}
  displayColumnWidth : ℕ
  filePromptEntries : Option (List String) := none
  taskDoc : TaskDocument
  contextCompaction : List ContextCompactionRecord := []
  sessionNotes : List SessionNote := []
  preSessionNotices : List String := []
  streamUsesStructuredFinalOutput : Bool := false
  readOnlyTurnActive : Bool := false
  activeEditLoop : Option EditLoop := none
  selectedTimelineIndex : ℕ := 0
  timelineFollowMode : Bool := true
  transcriptScrollOffset : ℕ := 0
  inspectorScrollOffset : ℕ := 0
  turnStartedAt : Option ℕ := none
  ttft : Option ℕ := none
  lastTurnTtft : Option ℕ := none
  lastTurnDuration : Option ℕ := none
  lastErrorMessage : Option String := none
  turnCompletionPending : Bool := false
  planTurnActive : Bool := false
  autoMemoryEnabled : Bool
  autoMemoryMaxNotes : ℕ
  requests : ℕ := 0
  answers : List (ℕ × Bool) := []

/-- What an update is handled with: the libraries, the clocks, the tokens of the last pulse, the notes
file and the texts of numbers with one decimal. -/
structure Host where
  env : Environment
  disp : Display
  /-- `started.elapsed()`, for each time it is read. -/
  elapsed : ℕ → ℕ → ℕ
  nowMillis : ℕ
  lastPulse : PulseTokens
  /-- `{:.1}` of a duration in seconds. -/
  formatSeconds : ℕ → String
  /-- `{:.1}` of a thousandth of a float. -/
  formatThousandth : ℕ → String
  isAlphanumeric : Char → Bool
  timestampSeconds : ℕ
  /-- `resolved_existing_notes_path().or_else(resolved_notes_path)` -/
  notesPath : Option String
  appendFeedbackNotes : String → List String → Except String Unit

namespace TuiMode

variable (host : Host)

def setDoc (mode : TuiMode) (taskDoc : TaskDocument) : TuiMode := { mode with taskDoc }

def modifyActive (mode : TuiMode) (f : ActiveTurnDocument → ActiveTurnDocument) : TuiMode :=
  mode.setDoc { mode.taskDoc with activePulse := mode.taskDoc.activePulse.map f }

def setTaskStatus (mode : TuiMode) (status : TaskStatus) : TuiMode :=
  mode.setDoc (mode.taskDoc.setStatus status)

def markRunning (mode : TuiMode) : TuiMode :=
  if mode.taskDoc.activePulse.isSome then mode.setTaskStatus .running else mode

def cancelPending (mode : TuiMode) : Bool := mode.taskDoc.activePulse.any fun t => t.cancelPending

def answer (mode : TuiMode) (request : ℕ) (approved : Bool) : TuiMode :=
  { mode with answers := mode.answers ++ [(request, approved)] }

/-- `alloc_step_id`, and `append_turn_entry` of the entry that is given the step. -/
def appendStep (mode : TuiMode) (entry : ℕ → PulseEntry) : TuiMode :=
  let id := mode.taskDoc.info.nextStepId
  let mode := mode.setDoc { mode.taskDoc with
    info := { mode.taskDoc.info with nextStepId := saturatingSucc id } }
  mode.modifyActive fun active => { active with entries := active.entries ++ [entry id] }

def pushDocumentNotice (mode : TuiMode) (message : String) (severity : NoticeSeverity) : TuiMode :=
  if mode.taskDoc.activePulse.isSome then
    mode.appendStep fun stepId => .systemNotice stepId message severity
  else { mode with preSessionNotices := mode.preSessionNotices ++ [message] }

/-! ### What is shown -/

structure TaskStepView where
  stepId : ℕ
  lifecycle : StepLifecycle
  label : String
  detail : String
  sessionId : Option ℕ

def displayStatusText (status : String) : String :=
  if status = "running" then pendingStatusLabel
  else if status = "completed" then completedStatusLabel
  else status

def stepStatusLabel : StepLifecycle → String
  | .awaitingApproval => "awaiting approval"
  | .approved => "approved"
  | .completed => "done"
  | .failed => "failed"
  | _ => pendingStatusLabel

def toolLifecycle (mode : TuiMode) (stepId : ℕ) (status : ToolStatus) : StepLifecycle :=
  if (mode.overlayState.pendingApproval.bind fun pending => pending.stepId) = some stepId then
    .awaitingApproval
  else if stepId ∈ mode.overlayState.approvedToolSteps then .approved
  else
    match status with
    | .complete => .completed
    | .error => .failed
    | .pending | .waitingApproval | .executing => .running
    | .cancelled => .failed

def sessionStepView (stepId : ℕ) (session : CommandSessionDocument) : TaskStepView :=
  let displayStatus := displayStatusText session.status
  let pid := (session.pid.map fun pid => toString pid).getD "pending"
  { stepId, lifecycle := .commandSession, label := s!"{session.command}: {displayStatus}"
    detail := s!"command: {session.command}\npid: {pid}\nstatus: {displayStatus}"
    sessionId := some stepId }

def entryStepView (env : Environment) (mode : TuiMode) : PulseEntry → Option TaskStepView
  | .toolCall stepId _ name input status =>
    let lifecycle := mode.toolLifecycle stepId status
    some {
      stepId, lifecycle, label := s!"{name}: {stepStatusLabel lifecycle}"
      detail := s!"Tool: {name}\nInput:\n{env.toStringPretty input}", sessionId := none }
  | .commandSession stepId session => some (sessionStepView stepId session)
  | _ => none

def inputStepViews (input : String) : List TaskStepView :=
  if Text.isEmpty (Text.trim input) then []
  else [{
    stepId := 0, lifecycle := .userInput, label := (Text.lines input).headD "", detail := input
    sessionId := none }]

/-- The steps of the active turn, or else of the last one. -/
def taskStepViews (env : Environment) (mode : TuiMode) : List TaskStepView :=
  match mode.taskDoc.activePulse with
  | some active =>
    inputStepViews active.input ++ active.entries.filterMap (mode.entryStepView env) ++
      active.commandSessions.map fun (_, session) => sessionStepView session.sessionId session
  | none =>
    match mode.taskDoc.completedTurns.getLast? with
    | some last => inputStepViews last.input ++ last.entries.filterMap (mode.entryStepView env)
    | none => []

def inspectorRows (mode : TuiMode) (entries : List TaskStepView) : Option (List TranscriptRow) :=
  if mode.timelineFollowMode || entries.isEmpty then none
  else
    (entries[min mode.selectedTimelineIndex (entries.length - 1)]?).bind fun entry =>
      if entry.lifecycle ≠ .userInput ∧ ¬ Text.isEmpty entry.detail then
        some ((Text.lines entry.detail).map .plain)
      else none

def taskOutputView (env : Environment) (mode : TuiMode) :
    Option (List TranscriptRow × OutputScrollAnchor) := do
  let transcriptRows ← projectTranscriptRows env mode.taskDoc mode.contextCompaction mode.preSessionNotices
  match mode.inspectorRows (mode.taskStepViews env) with
  | some rows => some (rows, .top)
  | none => some (transcriptRows, .bottom)

/-- `display_column_width.get() as u16` -/
def displayCols (mode : TuiMode) : ℕ := mode.displayColumnWidth % 2 ^ 16

def expandedOutput (mode : TuiMode) : Option (ℕ × OutputScrollAnchor) := do
  let (rows, anchor) ← mode.taskOutputView host.env
  let expanded ← expandRowsForDisplay host.disp rows mode.displayCols
  some (expanded.length, anchor)

def expandedOutputRowCount (mode : TuiMode) : Option ℕ := (mode.expandedOutput host).map Prod.fst

def preserveTranscriptScrollOnGrowth (mode : TuiMode) (previousExpandedRows : ℕ) : Option TuiMode :=
  if mode.transcriptScrollOffset = 0 then some mode
  else do
    let (expanded, anchor) ← mode.expandedOutput host
    let offset :=
      if anchor = .bottom ∧ expanded > previousExpandedRows then
        saturatingAdd mode.transcriptScrollOffset (expanded - previousExpandedRows)
      else mode.transcriptScrollOffset
    some { mode with transcriptScrollOffset := min offset (expanded - 1) }

def clampTranscriptAfterMutation (mode : TuiMode) : Option TuiMode := do
  let (totalRows, anchor) ← mode.expandedOutput host
  match anchor with
  | .bottom =>
    some { mode with transcriptScrollOffset := min mode.transcriptScrollOffset (totalRows - 1) }
  | .top =>
    some { mode with inspectorScrollOffset := min mode.inspectorScrollOffset (totalRows - 1) }

def isToolCall : PulseEntry → Bool
  | .toolCall .. => true
  | _ => false

def timelineEntryCount (mode : TuiMode) : ℕ :=
  let count (input : String) (entries : List PulseEntry) :=
    (if Text.isEmpty (Text.trim input) then 0 else 1) + entries.countP isToolCall
  max 1 <|
    match mode.taskDoc.activePulse with
    | some active => count active.input active.entries + active.commandSessions.length
    | none =>
      match mode.taskDoc.completedTurns.getLast? with
      | some last => count last.input last.entries
      | none => 0

/-! ### Approvals -/

def pendingToolStepId (env : Environment) (mode : TuiMode) (toolName inputPreview : String) :
    Option ℕ := do
  let active ← mode.taskDoc.activePulse
  let exactMatch := active.entries.findSome? fun entry =>
    match entry with
    | .toolCall stepId _ name input _ =>
      if name = toolName ∧ structuredPreview env name input = inputPreview then some stepId else none
    | _ => none
  let steps := active.entries.filterMap fun entry =>
    match entry with
    | .toolCall stepId _ name _ _ => if name = toolName then some stepId else none
    | _ => none
  exactMatch <|> steps.min?

def markToolStepApproved (mode : TuiMode) (stepId : Option ℕ) : TuiMode :=
  let approved := mode.overlayState.approvedToolSteps
  let approved := match stepId with
    | some stepId => insertElem stepId approved
    | none => approved
  { mode with overlayState := { mode.overlayState with approvedToolSteps := approved } }.setTaskStatus
    .running

/-- `resolve_pending_approval(false)` -/
def denyPendingApproval (mode : TuiMode) : TuiMode :=
  match mode.overlayState.pendingApproval with
  | none => mode
  | some pending =>
    let mode := { mode with overlayState := { mode.overlayState with pendingApproval := none } }
    match pending.action with
    | .tool request => mode.answer request false
    | .inlineCommand _ => mode

/-- `resolve_pending_patch_approval(false)` -/
def denyPendingPatchApproval (mode : TuiMode) : TuiMode :=
  match mode.overlayState.pendingPatchApproval with
  | none => mode
  | some pending =>
    let mode := { mode with overlayState := { mode.overlayState with pendingPatchApproval := none } }
    let mode := match pending.request with
      | some request => mode.answer request false
      | none => mode
    mode.pushDocumentNotice "[patch approval denied]" .info

def capabilityForToolName (toolName : String) : Option Capability :=
  if toolName ∈ ["read_file", "list_files", "list_directory", "list_dir", "glob_files", "search",
      "search_files", "search_content", "find_files", "git_status", "git_diff", "git_log",
      "git_show"] then some .readFile
  else if toolName ∈ ["write_file", "edit_file", "rename_file"] then some .writeFile
  else if toolName ∈ ["apply_patch", "git_add", "git_commit"] then some .applyPatch
  else if toolName = "run_command" then some .runCommand
  else if Text.startsWith toolName "mcp." then some .mcpTool
  else none

def scopeToLabel : ApprovalScope → String
  | .once => "once"
  | .task => "task"
  | .session => "session"

/-- `path` and `summary_line` of `summarize_tool_approval_context`. -/
def approvalContext : List String → Option String → Option String → Option String × Option String
  | [], path, summaryLine => (path, summaryLine)
  | line :: lines, path, summaryLine =>
    let trimmed := Text.trim line
    if Text.isEmpty trimmed then approvalContext lines path summaryLine
    else if path.isNone && Text.startsWith trimmed "path:" then
      approvalContext lines (some trimmed) summaryLine
    else approvalContext lines path (summaryLine.or (some trimmed))

def summarizeToolApprovalContext (toolName inputPreview : String) : String :=
  match approvalContext ((Text.lines inputPreview).take 8) none none with
  | (some path, some summary) => s!"{toolName} {path} {summary}"
  | (some path, none) => s!"{toolName} {path}"
  | (none, some summary) => s!"{toolName} {summary}"
  | (none, none) => toolName

/-! ### Notes that are kept on their own -/

/-- `none` when the line has no bullet. -/
def stripBulletPrefix (line : String) : Option String :=
  (Text.stripPrefix line "- ").or <| (Text.stripPrefix line "* ").or <|
    match line.toList with
    | first :: ' ' :: rest =>
      if !host.isAlphanumeric first && !isWhitespace first then
        some (Text.trimStart (String.ofList (' ' :: rest)))
      else none
    | _ => none

def isKeyValue (trimmed : String) : Bool :=
  Text.contains trimmed ": " && !Text.startsWith trimmed "//" && !Text.contains trimmed "::" &&
    !trimmed.toList.any fun c => "\x7b\x7d[]`;".toList.contains c

def looksStructured (content : String) : Bool :=
  content.toList.any (fun c => "\x7b\x7d[]`;".toList.contains c) || Text.contains content "::" ||
    ["fn ", "let ", "pub ", "impl "].any (Text.startsWith content)

def noteOfLine (trimmed : String) : Option String :=
  let bulletContent := stripBulletPrefix host trimmed
  let isNumbered := (Text.splitOnce trimmed ". ").any fun (before, _) => before.toList.all Char.isDigit
  if bulletContent.isSome || isNumbered || isKeyValue trimmed then
    let content := (bulletContent.map Text.trim).getD trimmed
    if !Text.isEmpty content && !looksStructured content then some content else none
  else none

def extractNotes (maxNotes : ℕ) : List String → Bool → List String → List String
  | [], _, notes => notes
  | line :: lines, inCodeBlock, notes =>
    let trimmed := Text.trim line
    if Text.startsWith trimmed "```" then extractNotes maxNotes lines (!inCodeBlock) notes
    else if inCodeBlock || Text.isEmpty trimmed then extractNotes maxNotes lines inCodeBlock notes
    else
      let notes := notes ++ (noteOfLine host trimmed).toList
      if notes.length ≥ maxNotes then notes else extractNotes maxNotes lines inCodeBlock notes

def extractNotesFromTurn (response : String) (maxNotes : ℕ) : List String :=
  if maxNotes = 0 then [] else extractNotes host maxNotes (Text.lines response) false []

def extractAssistantResponse (entries : List PulseEntry) : String :=
  Text.join "\n" (entries.filterMap fun entry =>
    match entry with
    | .assistantBlock _ block => if block.phase = .final then some block.content else none
    | _ => none)

def maybeExtractAutoMemory (mode : TuiMode) : TuiMode :=
  match mode.autoMemoryEnabled, mode.taskDoc.completedTurns.getLast? with
  | true, some lastPulse =>
    let response := extractAssistantResponse lastPulse.entries
    let notes := extractNotesFromTurn host response mode.autoMemoryMaxNotes
    let blank := Text.isEmpty (Text.trim lastPulse.input) && Text.isEmpty (Text.trim response)
    if blank || notes.isEmpty then mode
    else
      let formattedNotes := notes.map fun note => s!"[{host.timestampSeconds}] [auto] {note}"
      match host.notesPath with
      | none => mode
      | some path =>
        match host.appendFeedbackNotes path formattedNotes with
        | .ok () =>
          let createdAtTurn := mode.taskDoc.completedTurns.length
          let sessionNotes := mode.sessionNotes ++ formattedNotes.map fun content =>
            { content, createdAtTurn }
          { mode with sessionNotes }.pushDocumentNotice
            s!"[memory] auto: {formattedNotes.length} note(s) saved" .info
        | .error e => mode.pushDocumentNotice s!"[memory] auto extraction error: {e}" .warning
  | _, _ => mode

/-! ### The end of a turn -/

def resetTurnCapture (mode : TuiMode) : TuiMode :=
  { mode with
    taskDoc := { mode.taskDoc with activePulse := none }
    streamUsesStructuredFinalOutput := false
    overlayState := { mode.overlayState with approvedToolSteps := [] }
    selectedTimelineIndex := 0, timelineFollowMode := true, inspectorScrollOffset := 0
    turnStartedAt := none, ttft := none, turnCompletionPending := false, planTurnActive := false }

def tokenSuffix (n : Option ℕ) : String := (n.map fun n => s!" ({n} tok)").getD ""

def timingParts (timings : StreamTimings) : List String :=
  (timings.promptMs.map fun promptMs =>
      s!"↑:{host.formatThousandth promptMs}s{tokenSuffix timings.promptN}").toList ++
    (timings.predictedMs.map fun predictedMs =>
      s!"↓:{host.formatThousandth predictedMs}s{tokenSuffix timings.predictedN}").toList

def appendTurnTimingLine (mode : TuiMode) : TuiMode :=
  match mode.lastTurnDuration with
  | none => mode
  | some total =>
    let ttft := (mode.lastTurnTtft.map fun ttft => s!"ttft:{host.formatSeconds ttft}s").toList
    let timings := mode.taskDoc.completedTurns.getLast?.bind fun turn => turn.timings
    let parts := ttft ++ (timings.map (timingParts host)).getD [] ++
      [s!"total:{host.formatSeconds total}s"]
    mode.pushDocumentNotice ("[" ++ Text.join " | " parts ++ "]") .info

def beginCommandSessionWithId (mode : TuiMode) (sessionId : ℕ) (command : String) : TuiMode :=
  (mode.modifyActive fun t =>
    if (find? sessionId t.commandSessions).isSome then t
    else
      let session : CommandSessionDocument :=
        { sessionId, command, pid := none, status := "running", outputTail := [] }
      { t with commandSessions := insertSorted sessionId session t.commandSessions }).setTaskStatus
    .running

/-- A turn that is committed has an input, or an entry that is not a notice. -/
def hasContent (active : ActiveTurnDocument) : Bool :=
  !Text.isEmpty (Text.trim active.input) || active.entries.any fun entry =>
    match entry with
    | .systemNotice .. => false
    | _ => true

def planText (active : ActiveTurnDocument) : Option String :=
  active.entries.reverse.findSome? fun entry =>
    match entry with
    | .assistantBlock _ block =>
      if block.phase = .final ∧ ¬ Text.isEmpty (Text.trim block.content) then some block.content
      else none
    | _ => none

def notePlan (mode : TuiMode) : TuiMode :=
  if mode.planTurnActive then
    match mode.taskDoc.activePulse.bind planText with
    | some plan =>
      { mode with sessionNotes := mode.sessionNotes ++
          [{ content := s!"[plan] {plan}", createdAtTurn := mode.taskDoc.completedTurns.length }] }
    | none => mode
  else mode

def elapsedSinceStart (mode : TuiMode) (reading : ℕ) : Option ℕ :=
  mode.turnStartedAt.map (host.elapsed reading)

def finishTurn (mode : TuiMode) (outcome : PulseOutcome) : TuiMode :=
  mode.setDoc (mode.taskDoc.finishTurn outcome host.lastPulse host.nowMillis).1

def commitCompletedTurn (mode : TuiMode) : TuiMode :=
  let mode := mode.notePlan
  if mode.taskDoc.activePulse.any hasContent then
    let mode := { mode with
      lastTurnDuration := mode.elapsedSinceStart host 0, lastTurnTtft := mode.ttft
      lastErrorMessage := none }
    let mode := mode.finishTurn host .completed
    { mode with transcriptScrollOffset := 0, inspectorScrollOffset := 0 }.resetTurnCapture
  else (mode.setTaskStatus .completed).resetTurnCapture

def completeTurnIfIdle (mode : TuiMode) : TuiMode :=
  let sessionsEmpty := mode.taskDoc.activePulse.all fun t => t.commandSessions.isEmpty
  if !mode.turnCompletionPending || !sessionsEmpty then mode
  else
    let mode := { mode with lastErrorMessage := none }.denyPendingApproval.denyPendingPatchApproval
    let mode := (mode.commitCompletedTurn host).appendTurnTimingLine host
    let mode := (mode.maybeExtractAutoMemory host).modifyActive fun active =>
      { active with cancelPending := false }
    { mode with
      readOnlyTurnActive := false, turnCompletionPending := false, transcriptScrollOffset := 0
      inspectorScrollOffset := 0 }

/-! ### The rows can be counted -/

theorem taskOutputView_completes (env : Environment) (mode : TuiMode) :
    Completes (mode.taskOutputView env) := by
  refine .bind (projectTranscriptRows_completes env _ _ _) fun transcriptRows => ?_
  cases mode.inspectorRows (mode.taskStepViews env) with
  | some rows | none => exact .pure _

variable (mode : TuiMode)

theorem expandedOutput_completes : Completes (mode.expandedOutput host) := by
  refine .bind (taskOutputView_completes host.env mode) fun view => ?_
  exact .bind (expandRowsForDisplay_completes host.disp _ _) fun expanded => .pure _

theorem expandedOutputRowCount_completes : Completes (mode.expandedOutputRowCount host) :=
  .map _ (expandedOutput_completes host mode)

theorem preserveTranscriptScrollOnGrowth_completes (previousExpandedRows : ℕ) :
    Completes (mode.preserveTranscriptScrollOnGrowth host previousExpandedRows) :=
  .ite (.pure _) (.bind (expandedOutput_completes host mode) fun _ => .pure _)

theorem clampTranscriptAfterMutation_completes : Completes (mode.clampTranscriptAfterMutation host) := by
  refine .bind (expandedOutput_completes host mode) fun view => ?_
  obtain ⟨totalRows, anchor⟩ := view
  cases anchor with
  | top | bottom => exact .pure _

end TuiMode

end Vexcoder.App

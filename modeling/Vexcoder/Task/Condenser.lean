import Vexcoder.Task.Document

/-!
# The condenser

`TaskDocumentCondenser` begins and finishes turns and works the signals of the runtime into the
running turn.  The milliseconds it reads from the clock are arguments: `now` is the reading for the
time to the first token, `now'` the one for the time of the update.
-/

namespace Vexcoder.Task

open Base Lib.Assoc Vexcoder.Runtime

/-- Replace the first element that `f` takes. -/
def updateFirst {α : Type} (f : α → Option α) : List α → List α
  | [] => []
  | a :: l =>
    match f a with
    | some a' => a' :: l
    | none => a :: updateFirst f l

/-- `update_block_content`: the last block with the index. -/
def updateBlockContent (blockIndex : ℕ) (mutate : AssistantBlockEntry → AssistantBlockEntry)
    (active : ActiveTurnDocument) : ActiveTurnDocument :=
  { active with
    entries := (updateFirst (fun entry =>
      match entry with
      | .assistantBlock stepId block =>
        if block.blockIndex = blockIndex then some (.assistantBlock stepId (mutate block)) else none
      | _ => none) active.entries.reverse).reverse }

def setCallStatus (toolCallId : String) (status : ToolStatus) (active : ActiveTurnDocument) :
    ActiveTurnDocument :=
  { active with
    entries := updateFirst (fun entry =>
      match entry with
      | .toolCall stepId id name input _ =>
        if id = toolCallId then some (.toolCall stepId id name input status) else none
      | _ => none) active.entries }

def hasCall (toolCallId : String) (active : ActiveTurnDocument) : Bool :=
  active.entries.any fun entry =>
    match entry with
    | .toolCall _ id .. => id == toolCallId
    | _ => false

namespace TaskDocument

def beginTask (info : TaskInfo) : TaskDocument := { info }

def setActive (doc : TaskDocument) (active : ActiveTurnDocument) : TaskDocument :=
  { doc with activePulse := some active }

/-- `alloc_step`, and the entry that is given the step. -/
def pushEntry (doc : TaskDocument) (active : ActiveTurnDocument) (entry : ℕ → PulseEntry) :
    TaskDocument :=
  { doc with
    info := { doc.info with nextStepId := saturatingSucc doc.info.nextStepId }
    activePulse := some { active with entries := active.entries ++ [entry doc.info.nextStepId] } }

def setStatus (doc : TaskDocument) (status : TaskStatus) : TaskDocument :=
  { doc with info := { doc.info with status } }

/-- `none` is the assertion that no pulse is open. -/
def beginTurn (doc : TaskDocument) (input : String) (startedAtMs : ℕ)
    (toolPolicy : PulseToolPolicy) : Option TaskDocument :=
  if doc.activePulse.isSome then none
  else some { doc with
    info := { doc.info with
      nextStepId := saturatingSucc doc.info.nextStepId
      status := .running
      updatedAtMs := startedAtMs }
    activePulse := some {
      turnIndex := doc.completedTurns.length, input
      entries := [.userInput doc.info.nextStepId input]
      startedAtMs, toolPolicy } }

/-- `ToolCallCompleted` and `ToolCallFailed`. -/
def recordResult (doc : TaskDocument) (active : ActiveTurnDocument) (toolCallId : String)
    (toolName : Option String) (output : String) (status : ToolStatus) (isError : Bool) :
    TaskDocument × TaskMutationSummary :=
  (doc.pushEntry (setCallStatus toolCallId status active) fun stepId =>
      .toolResult stepId toolCallId toolName output isError,
    { activeTurnChanged := true, appendedRows := 1 })

def recordGrant (info : TaskInfo) (capability : Capability) (scope : ApprovalScope)
    (approved : Bool) : TaskInfo :=
  if approved then
    match scope with
    | .once => info
    | .task | .session =>
      { info with activeGrants := insertLast capability scope info.activeGrants }
  else { info with activeGrants := erase capability info.activeGrants }

/-- What a signal does to the running turn; `true` when the function returns early. -/
def applyToActive (now : ℕ) (doc : TaskDocument) (active : ActiveTurnDocument)
    (signal : RuntimeSignal) : TaskDocument × TaskMutationSummary × Bool :=
  match signal with
  | .transcriptLine line =>
    (doc.pushEntry active fun stepId => .systemNotice stepId line .info,
      { activeTurnChanged := true, appendedRows := 1 }, false)
  | .transcriptBlockStart index block =>
    let entry (phase : AssistantPhase) (content : String) (collapsed : Bool) :=
      (doc.pushEntry active fun stepId => .assistantBlock stepId
          { blockIndex := index, phase, content, collapsed, streaming := true },
        ({ activeTurnChanged := true, appendedRows := 1 } : TaskMutationSummary), false)
    match block with
    | .thinking content collapsed => entry .thinking content collapsed
    | .finalText content => entry .final content false
    | .toolCall .. | .toolResult .. => (doc, {}, true)
  | .transcriptBlockDelta index delta =>
    let active := updateBlockContent index
      (fun block => { block with content := block.content ++ delta }) active
    (doc.setActive { active with ttftMs := active.ttftMs.or (some (now - active.startedAtMs)) },
      { activeTurnChanged := true }, false)
  | .transcriptBlockComplete index =>
    (doc.setActive (updateBlockContent index (fun block => { block with streaming := false }) active),
      { activeTurnChanged := true }, false)
  | .toolCallStatusUpdated toolCallId status =>
    (doc.setActive (setCallStatus toolCallId status active),
      { activeTurnChanged := hasCall toolCallId active }, false)
  | .transcriptBlockPhaseUpdated index phase streaming =>
    (doc.setActive (updateBlockContent index (fun block => { block with phase, streaming }) active),
      { activeTurnChanged := true }, false)
  | .toolCallStarted toolCallId toolName arguments status _ =>
    (doc.pushEntry active fun stepId => .toolCall stepId toolCallId toolName arguments status,
      { activeTurnChanged := true, appendedRows := 1, selectedStepId := some doc.info.nextStepId },
      false)
  | .toolCallCompleted toolCallId toolName status _ _ _ output =>
    let (doc', summary) := recordResult doc active toolCallId toolName output status false
    (doc', summary, false)
  | .toolCallFailed toolCallId toolName status _ _ _ output =>
    let (doc', summary) := recordResult doc active toolCallId toolName output status true
    (doc', summary, false)
  | .approvalRequest capability scope toolName =>
    match Capability.fromStr capability, ApprovalScope.fromStr scope with
    | .ok capability, .ok scope =>
      let approval : ApprovalDocument :=
        { stepId := doc.info.nextStepId, capability, scope, toolName, inputPreview := "" }
      ((doc.pushEntry { active with pendingApproval := some approval } fun stepId =>
          .approvalRequest stepId approval).setStatus .awaitingApproval,
        { activeTurnChanged := true, approvalChanged := true, taskStatusChanged := true }, false)
    | _, _ => (doc, {}, false)
  | .approvalResolved capability scope approved =>
    match Capability.fromStr capability, ApprovalScope.fromStr scope with
    | .ok capability, .ok scope =>
      let doc' := doc.pushEntry { active with pendingApproval := none } fun stepId =>
        .approvalResolved stepId capability scope approved
      ({ doc' with info := recordGrant doc'.info capability scope approved }.setStatus .running,
        { activeTurnChanged := true, approvalChanged := true, taskStatusChanged := true }, false)
    | _, _ => (doc, {}, false)
  | .serverMetadata metadata =>
    (doc.setActive { active with
        promptProgress := metadata.promptProgress.or active.promptProgress
        timings := metadata.timings.or active.timings },
      { activeTurnChanged := true }, false)
  | .pulseEnd _ _ changedFiles =>
    let files := changedFiles.foldl (fun files path => insertElem path files) active.changedFiles
    (doc.setActive { active with changedFiles := files },
      { activeTurnChanged := files.length != active.changedFiles.length }, false)
  | .pulseStart _ | .toolCallArgumentsDelta .. | .validationResult .. | .usageUpdated _
  | .error .. | .maxTurnsReached _ => (doc, {}, false)

/-- What a signal does whether a turn is running or not. -/
def applyToTask (signal : RuntimeSignal) (doc : TaskDocument) (summary : TaskMutationSummary) :
    TaskDocument × TaskMutationSummary :=
  match signal with
  | .error _ message recoverable =>
    let doc := { doc with lastError := some { message, recoverable } }
    if recoverable then (doc, summary)
    else (doc.setStatus .failed, { summary with taskStatusChanged := true })
  | .maxTurnsReached _ => (doc.setStatus .maxTurnsReached, { summary with taskStatusChanged := true })
  | _ => (doc, summary)

def applyRuntimeSignal (now now' : ℕ) (doc : TaskDocument) (signal : RuntimeSignal) :
    TaskDocument × TaskMutationSummary :=
  let (doc, summary, returned) :=
    match doc.activePulse with
    | some active => applyToActive now doc active signal
    | none => (doc, {}, false)
  if returned then (doc, summary)
  else
    let (doc, summary) := applyToTask signal doc summary
    ({ doc with info := { doc.info with updatedAtMs := now' } }, summary)

def stopStreaming : PulseEntry → PulseEntry
  | .assistantBlock stepId block => .assistantBlock stepId { block with streaming := false }
  | entry => entry

def outcomeStatus : PulseOutcome → TaskStatus
  | .completed => .ready
  | .failed _ => .failed
  | .cancelled => .cancelled
  | .maxTurnsReached => .maxTurnsReached

def finishTurn (doc : TaskDocument) (outcome : PulseOutcome) (tokens : PulseTokens)
    (completedAtMs : ℕ) : TaskDocument × TaskMutationSummary :=
  match doc.activePulse with
  | none => (doc, {})
  | some active =>
    ({ doc with
        info := { doc.info with status := outcomeStatus outcome, updatedAtMs := completedAtMs }
        activePulse := none
        completedTurns := doc.completedTurns ++ [{
          turnIndex := active.turnIndex, input := active.input
          entries := active.entries.map stopStreaming
          outcome, changedFiles := active.changedFiles, commandHistory := active.commandHistory
          tokens, startedAtMs := active.startedAtMs, completedAtMs, ttftMs := active.ttftMs
          timings := active.timings }] },
      { taskStatusChanged := true, activeTurnChanged := true })

end TaskDocument

end Vexcoder.Task

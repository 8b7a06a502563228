import Mathlib.Data.String.Basic
import Vexcoder.App.Update
import Vexcoder.Task.Document
import Vexcoder.Tools.Evidence

/-!
# Batch mode

`BatchMode` receives the updates of a pulse in place of the terminal interface, and writes what it has
received as one record of evidence for each turn: the response, the files that were changed and the
commands that were run.  A line of JSON is kept as the record of which it is the text.
-/

namespace Vexcoder.App

open Base Lib Vexcoder.Runtime Vexcoder.Task Tools

/-! ### Evidence of a call -/

def commandProgram (name : String) : Option String :=
  if name = "git_status" then some "git status"
  else if name = "git_diff" then some "git diff"
  else if name = "git_log" then some "git log"
  else if name = "git_show" then some "git show"
  else if name = "git_add" then some "git add"
  else if name = "git_commit" then some "git commit"
  else none

def commandEvidenceFromToolResult (name : String) (isError : Bool) : Option CommandEvidence :=
  (commandProgram name).map fun program =>
    { program, exitCode := some (if isError then 1 else 0), interrupted := false }

/-- `BTreeSet::extend` -/
def insertAll (paths changedFiles : List String) : List String :=
  paths.foldl (fun set path => Assoc.insertElem path set) changedFiles

def noteChangedFilesFromToolCall (changedFiles : List String) (name : String) (input : Value) :
    List String :=
  insertAll (changedFilesOf name input) changedFiles

/-! ### The mode -/

inductive OutputFormat where
  | jsonl
  | text
  deriving DecidableEq

inductive AutoApproveScope where
  | once
  | task
  deriving DecidableEq

structure TurnEvidenceRecord where
  pulse : ℕ
  input : String
  response : String
  instructionsPath : Option String
  changedFiles : List String
  commandHistory : List CommandEvidence
  tokens : PulseTokens
  deriving DecidableEq

structure SummaryRecord where
  status : String
  taskId : String
  totalTurns : ℕ
  instructionsPath : Option String
  changedFiles : List String
  deriving DecidableEq

inductive OutputLine where
  | pulse (record : TurnEvidenceRecord)
  | summary (record : SummaryRecord)
  | text (line : String)
  deriving DecidableEq

structure PendingToolCall where
  name : String
  input : Value
  deriving DecidableEq

/-- The sets are lists in order. -/
structure BatchMode where
  taskId : String
  status : TaskStatus := .ready
  turnInProgress : Bool := false
  done : Bool := false
  maxTurns : Option ℕ := none
  autoApprove : Option AutoApproveScope := none
  format : OutputFormat := .jsonl
  instructionsPath : Option String := none
  currentResponse : String := ""
  currentTurn : ℕ := 0
  currentTurnInput : String := ""
  currentTurnChangedFiles : List String := []
  currentTurnTextBlockIndices : List ℕ := []
  taskChangedFiles : List String := []
  currentTurnCommandHistory : List CommandEvidence := []
  currentTurnTokens : PulseTokens := {}
  pendingToolCalls : List (String × PendingToolCall) := []
  outputLines : List OutputLine := []
  deriving DecidableEq

/-- The name of the status as `Debug` writes it. -/
def statusDebug : TaskStatus → String
  | .ready => "Ready"
  | .running => "Running"
  | .awaitingApproval => "AwaitingApproval"
  | .cancelling => "Cancelling"
  | .completed => "Completed"
  | .failed => "Failed"
  | .cancelled => "Cancelled"
  | .maxTurnsReached => "MaxTurnsReached"

namespace BatchMode

def approvalDecision (b : BatchMode) : Bool := b.autoApprove.isSome

def resetCurrentTurnState (b : BatchMode) : BatchMode :=
  { b with
    currentResponse := ""
    currentTurnInput := ""
    currentTurnChangedFiles := []
    currentTurnTextBlockIndices := []
    currentTurnCommandHistory := []
    currentTurnTokens := {}
    pendingToolCalls := [] }

def turnRecord (b : BatchMode) (tokens : PulseTokens) : TurnEvidenceRecord where
  pulse := b.currentTurn + 1
  input := b.currentTurnInput
  response := b.currentResponse
  instructionsPath := b.instructionsPath
  changedFiles := b.currentTurnChangedFiles
  commandHistory := b.currentTurnCommandHistory
  tokens := tokens

def turnLines (b : BatchMode) (tokens : PulseTokens) : List OutputLine :=
  match b.format with
  | .jsonl => [.pulse (b.turnRecord tokens)]
  | .text => (if 1 < b.currentTurn + 1 then [.text ""] else []) ++ [.text b.currentResponse]

def finishTurn (b : BatchMode) (tokens : PulseTokens) : BatchMode :=
  { b with
    currentTurn := b.currentTurn + 1
    currentResponse := ""
    currentTurnInput := ""
    taskChangedFiles := insertAll b.currentTurnChangedFiles b.taskChangedFiles
    currentTurnCommandHistory := []
    outputLines := b.outputLines ++ b.turnLines tokens
    turnInProgress := false
    currentTurnTokens := {}
    currentTurnTextBlockIndices := []
    pendingToolCalls := [] }

def appendSummary (b : BatchMode) : BatchMode :=
  match b.format with
  | .jsonl =>
    { b with
      outputLines := b.outputLines ++ [.summary {
        status := statusDebug b.status
        taskId := b.taskId
        totalTurns := b.currentTurn
        instructionsPath := b.instructionsPath
        changedFiles := b.taskChangedFiles }] }
  | .text => b

def finishRun (b : BatchMode) (tokens : PulseTokens) (status : TaskStatus) : BatchMode :=
  let b := b.finishTurn tokens
  if b.done then b
  else { ({ b with status } : BatchMode).appendSummary with done := true }

def markMaxTurnsReached (b : BatchMode) : BatchMode :=
  { ({ b with status := .maxTurnsReached } : BatchMode).appendSummary with
    done := true
    turnInProgress := false }

def beginTurn (b : BatchMode) (input : String) : BatchMode :=
  { b.resetCurrentTurnState with
    status := .running
    turnInProgress := true
    currentTurnInput := input }

/-- `complete_without_model`, `fail_without_model` -/
def endWithoutModel (b : BatchMode) (input message : String) (status : TaskStatus) : BatchMode :=
  { b.beginTurn input with currentResponse := message }.finishRun {} status

/-- `clearNotes` is what `clear_notes_file` returns. -/
def handleMemoryClear (b : BatchMode) (clearNotes : Except String Unit) (input : String) : BatchMode :=
  if b.autoApprove.isNone then
    b.endWithoutModel input "[memory] /memory clear requires --auto-approve in batch mode" .failed
  else
    match clearNotes with
    | .ok () => b.endWithoutModel input "[memory: cleared]" .completed
    | .error e => b.endWithoutModel input ("[memory] error clearing: " ++ e) .failed

def maxTurnsReached (b : BatchMode) : Bool :=
  match b.maxTurns with
  | some max => max ≤ b.currentTurn
  | none => false

/-- The mode behind an input, and the input with which a pulse is started. -/
def onUserInput (b : BatchMode) (clearNotes : Except String Unit) (input : String) :
    BatchMode × Option String :=
  if b.done then (b, none)
  else if b.maxTurnsReached then (b.markMaxTurnsReached, none)
  else if Text.trim input = "/memory clear" then (b.handleMemoryClear clearNotes input, none)
  else (b.beginTurn input, some input)

def openTextBlock (b : BatchMode) (index : ℕ) (content : String) : BatchMode :=
  { b with
    currentTurnTextBlockIndices := Assoc.insertElem index b.currentTurnTextBlockIndices
    currentResponse := b.currentResponse ++ content }

def noteResult (b : BatchMode) (toolCallId : String) (isError : Bool) : BatchMode :=
  match Assoc.find? toolCallId b.pendingToolCalls with
  | none => b
  | some pending =>
    { b with
      pendingToolCalls := Assoc.erase toolCallId b.pendingToolCalls
      currentTurnChangedFiles :=
        if isError then b.currentTurnChangedFiles
        else noteChangedFilesFromToolCall b.currentTurnChangedFiles pending.name pending.input
      currentTurnCommandHistory := b.currentTurnCommandHistory ++
        (commandEvidenceFromToolResult pending.name isError).toList }

/-- The mode behind an update, and the answer to a request for approval. -/
def onModelUpdate (lastPulse : PulseTokens) (b : BatchMode) : UiUpdate → BatchMode × Option Bool
  | .streamDelta text => ({ b with currentResponse := b.currentResponse ++ text }, none)
  | .pulseComplete => (b.finishRun lastPulse .completed, none)
  | .error message =>
    ({ b with currentResponse := b.currentResponse ++ message }.finishRun {} .failed, none)
  | .streamBlockStart index (.thinking content _) => (b.openTextBlock index content, none)
  | .streamBlockStart index (.finalText content) => (b.openTextBlock index content, none)
  | .streamBlockStart _ (.toolCall id name input _) =>
    -- `sanitize_buffered_response_for_tool_call` has no body
    ({ b with pendingToolCalls := Assoc.insertLast id { name, input } b.pendingToolCalls }, none)
  | .streamBlockStart _ (.toolResult toolCallId _ isError) => (b.noteResult toolCallId isError, none)
  | .streamBlockDelta index delta =>
    if index ∈ b.currentTurnTextBlockIndices then
      ({ b with currentResponse := b.currentResponse ++ delta }, none)
    else (b, none)
  | .streamBlockComplete index =>
    ({ b with
      currentTurnTextBlockIndices := b.currentTurnTextBlockIndices.filter (· ≠ index) }, none)
  | .toolApprovalRequest _ => (b, some b.approvalDecision)
  | .transcriptLine _ | .toolCallArgumentsUpdated .. | .serverMetadata _ | .commandSessionStarted ..
  | .commandSessionAttached .. | .commandSessionFinished _ | .editLoopComplete ..
  | .contextCompacted .. => (b, none)

def receive (lastPulse : PulseTokens) (b : BatchMode) (updates : List UiUpdate) : BatchMode :=
  updates.foldl (fun b update => (b.onModelUpdate lastPulse update).1) b

end BatchMode

/-! ### The files of a record -/

theorem mem_insertAll {path : String} {paths changedFiles : List String} :
    path ∈ insertAll paths changedFiles ↔ path ∈ paths ∨ path ∈ changedFiles := by
  induction paths generalizing changedFiles with
  | nil => exact ⟨.inr, fun h => h.resolve_left List.not_mem_nil⟩
  | cons next paths ih =>
    show path ∈ insertAll paths (Assoc.insertElem next changedFiles) ↔ _
    rw [ih, Assoc.mem_insertElem, List.mem_cons]
    constructor
    · rintro (h | h | h)
      · exact .inl (.inr h)
      · exact .inl (.inl h)
      · exact .inr h
    · rintro ((h | h) | h)
      · exact .inr (.inl h)
      · exact .inl h
      · exact .inr (.inr h)

/-- The files are in order, each once. -/
theorem insertAll_sorted {changedFiles : List String} (h : changedFiles.Pairwise (· < ·))
    (paths : List String) : (insertAll paths changedFiles).Pairwise (· < ·) := by
  induction paths generalizing changedFiles with
  | nil => exact h
  | cons next paths ih => exact ih (Assoc.sorted_insertElem h next)

namespace BatchMode

theorem receive_append (lastPulse : PulseTokens) (b : BatchMode) (us vs : List UiUpdate) :
    b.receive lastPulse (us ++ vs) = (b.receive lastPulse us).receive lastPulse vs :=
  List.foldl_append

theorem receive_cons (lastPulse : PulseTokens) (b : BatchMode) (u : UiUpdate) (us : List UiUpdate) :
    b.receive lastPulse (u :: us) = (b.onModelUpdate lastPulse u).1.receive lastPulse us := rfl

theorem appendSummary_lines (b : BatchMode) :
    ∃ rest, b.appendSummary.outputLines = b.outputLines ++ rest := by
  unfold appendSummary
  split
  · exact ⟨_, rfl⟩
  · exact ⟨[], (List.append_nil _).symm⟩

theorem finishRun_done (b : BatchMode) (tokens : PulseTokens) (status : TaskStatus) :
    (b.finishRun tokens status).done = true := by
  rw [finishRun]
  split
  · rename_i hdone
    exact hdone
  · rfl

theorem finishRun_record {b : BatchMode} (hformat : b.format = .jsonl) (tokens : PulseTokens)
    (status : TaskStatus) :
    ∃ rest, (b.finishRun tokens status).outputLines =
      b.outputLines ++ .pulse (b.turnRecord tokens) :: rest := by
  have hlines : (b.finishTurn tokens).outputLines = b.outputLines ++ [.pulse (b.turnRecord tokens)] := by
    rw [finishTurn, turnLines, hformat]
  rw [finishRun]
  split
  · exact ⟨[], hlines⟩
  obtain ⟨rest, hrest⟩ := appendSummary_lines { b.finishTurn tokens with status }
  refine ⟨rest, ?_⟩
  show (appendSummary { b.finishTurn tokens with status }).outputLines = _
  rw [hrest]
  show (b.finishTurn tokens).outputLines ++ rest = _
  rw [hlines, List.append_assoc]
  rfl

end BatchMode

end Vexcoder.App

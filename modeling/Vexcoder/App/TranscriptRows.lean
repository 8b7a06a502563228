import Vexcoder.App.CompactText
import Vexcoder.Conversation.ToolPreview
import Vexcoder.Task.State

/-!
# The rows of the transcript

The transcript is shown as rows that are made anew from the task document each time: the notices from
before the first turn, the turns that are completed with the compactions in front of them, and the turn
that is running.  A tool call gives a header, its input, its result and the first lines of its output;
a call that repeats the header before it gives one line with a count.
-/

namespace Vexcoder.App

open Base Lib Vexcoder.Runtime Conversation Vexcoder.Task

inductive TranscriptRow where
  | userInput (text : String)
  | assistantText (text : String) (streaming : Bool)
  | toolHeader (text : String)
  | toolDetail (text : String)
  | evidence (text : String)
  | error (text : String)
  | waitingPlaceholder (text : String)
  | plain (text : String)

namespace TranscriptRow

def asDisplayStr : TranscriptRow → String
  | userInput text | assistantText text _ | toolHeader text | toolDetail text | evidence text
  | error text | waitingPlaceholder text | plain text => text

def cloneWithText (text : String) : TranscriptRow → TranscriptRow
  | userInput _ => userInput text
  | assistantText _ streaming => assistantText text streaming
  | toolHeader _ => toolHeader text
  | toolDetail _ => toolDetail text
  | evidence _ => evidence text
  | error _ => error text
  | waitingPlaceholder _ => waitingPlaceholder text
  | plain _ => plain text

end TranscriptRow

inductive StepLifecycle where
  | running
  | completed
  | failed
  | awaitingApproval
  | approved
  | userInput
  | commandSession
  deriving DecidableEq

def pendingStatusLabel : String := "Mapping adjacent sectors..."

def completedStatusLabel : String := "Response complete."

def waitingForResponseLine : String := "[thinking] Mapping adjacent sectors..."

/-! ### The rows of a call -/

def firstNonemptyLine (text : String) : Option String :=
  ((Text.lines text).map Text.trimEnd).find? fun line => !Text.isEmpty (Text.trim line)

def previewRows (preview : String) : List String :=
  ((Text.lines preview).map Text.trimEnd).filter fun line => !Text.isEmpty (Text.trim line)

/-- The rows that `append_preview_rows` appends. -/
def appendedPreviewRows : List String → List TranscriptRow
  | [] => []
  | first :: rest => .toolDetail ("Input: " ++ first) :: rest.map .evidence

def toolHeaderSummary (name : String) (target : Option String) (status : String) : String :=
  match target with
  | some target =>
    if Text.isEmpty target then name ++ " · " ++ status
    else name ++ " · " ++ target ++ " · " ++ status
  | none => name ++ " · " ++ status

/-- The target that the first line of the output names, or else the preview of the input. -/
def toolTarget (firstLine inputPreview : String) : Option (Option String) := do
  match ← toolTargetSummary firstLine with
  | some target => some (some target)
  | none => toolTargetSummary inputPreview

def toolStatusToPendingLifecycle : ToolStatus → StepLifecycle
  | .waitingApproval => .awaitingApproval
  | .executing | _ => .running

def pendingToolParagraphRows (name inputPreview : String) (lifecycle : StepLifecycle) :
    Option (List TranscriptRow) := do
  let status := match lifecycle with
    | .awaitingApproval => "awaiting approval"
    | .approved => "approved"
    | _ => pendingStatusLabel
  let target ← toolTargetSummary inputPreview
  some (.toolHeader (toolHeaderSummary name target status) :: appendedPreviewRows (previewRows inputPreview))

def maxEvidenceLines : ℕ := 3

/-- The lines of the output that are not blank and not only digits, with blanks for tabs. -/
def evidenceLines (output : String) : List String :=
  ((Text.lines output).map fun line =>
      String.ofList ((Text.trimEnd line).toList.map fun c => if c = '\t' then ' ' else c)).filter
    fun line => !Text.isEmpty (Text.trim line) && !(Text.trim line).toList.all Char.isDigit

def evidenceRows (output : String) : List TranscriptRow :=
  let nonempty := evidenceLines output
  (nonempty.take maxEvidenceLines).map .evidence ++
    if nonempty.length > maxEvidenceLines then
      [.evidence (s!"+{nonempty.length - maxEvidenceLines} more lines")]
    else []

def completedStatus (isError : Bool) : String := if isError then "failed" else completedStatusLabel

variable (env : Environment)

def structuredPreview (name : String) (input : Value) : String :=
  previewToolInput env name input .structured defaultEditDiffContextLines

def completedToolParagraphRows (name : String) (input : Value) (output : String) (isError : Bool) :
    Option (List TranscriptRow) := do
  let status := completedStatus isError
  let inputPreview := structuredPreview env name input
  let firstLine := (firstNonemptyLine output).getD status
  let target ← toolTarget firstLine inputPreview
  let inputRows := previewRows inputPreview
  let shownInput := if inputRows.head?.any (· ≠ "(no arguments)") then inputRows else []
  let outcome ← compactOutcomeSummary firstLine
  some ([.toolHeader (toolHeaderSummary name target status)] ++ appendedPreviewRows shownInput ++
    [.toolDetail ("Result: " ++ outcome)] ++ evidenceRows output)

/-! ### The rows of a turn -/

/-- `rows`, `last_tool_header` and `repeat_count` of `append_turn_rows`. -/
structure TurnRows where
  rows : List TranscriptRow
  lastToolHeader : Option String := none
  repeatCount : ℕ := 0

namespace TurnRows

/-- A call that repeats the header before it: one line stands for all its repetitions. -/
def repeated (s : TurnRows) : TurnRows :=
  let foldLine := TranscriptRow.toolDetail s!"(repeated ×{s.repeatCount + 2}, same call)"
  let rows :=
    match s.rows.getLast? with
    | some (.toolDetail text) =>
      if Text.startsWith text "(repeated" then s.rows.dropLast ++ [foldLine] else s.rows ++ [foldLine]
    | _ => s.rows ++ [foldLine]
  { s with rows, repeatCount := s.repeatCount + 1 }

/-- A row that is no call: the next call is not a repetition. -/
def push (s : TurnRows) (rows : List TranscriptRow) : TurnRows := { rows := s.rows ++ rows }

def appendAssistantBlock (s : TurnRows) (block : AssistantBlockEntry) : TurnRows :=
  if block.phase = .thinking ∧ block.collapsed then s
  else
    let lines := (Text.lines block.content).map fun line => TranscriptRow.assistantText line false
    let shown :=
      if block.streaming && !Text.isEmpty block.content && !Text.endsWith block.content "\n" then
        match lines.getLast? with
        | some (.assistantText text _) => lines.dropLast ++ [.assistantText (text ++ "|") true]
        | _ => lines
      else lines
    if Text.isEmpty (Text.trim block.content) then { s with rows := s.rows ++ shown }
    else s.push shown

def appendToolCall (s : TurnRows) (name : String) (input : Value) (status : ToolStatus)
    (result : Option (String × Bool)) : Option TurnRows :=
  match result with
  | some (output, isError) => do
    let firstOutput := (firstNonemptyLine output).getD (completedStatus isError)
    let target ← toolTarget firstOutput (structuredPreview env name input)
    let currentHeader := toolHeaderSummary name target (completedStatus isError)
    if s.lastToolHeader = some currentHeader then some s.repeated
    else
      let rows ← completedToolParagraphRows env name input output isError
      some { rows := s.rows ++ rows, lastToolHeader := some currentHeader }
  | none => do
    let inputPreview := structuredPreview env name input
    let target ← toolTargetSummary inputPreview
    let pendingHeader := toolHeaderSummary name target pendingStatusLabel
    if s.lastToolHeader = some pendingHeader then some s.repeated
    else
      let rows ← pendingToolParagraphRows name inputPreview (toolStatusToPendingLifecycle status)
      some { rows := s.rows ++ rows, lastToolHeader := some pendingHeader }

/-- `tool_results`: the last result of a call. -/
def toolResult (entries : List PulseEntry) (callId : String) : Option (String × Bool) :=
  entries.reverse.findSome? fun entry =>
    match entry with
    | .toolResult _ toolCallId _ output isError =>
      if toolCallId = callId then some (output, isError) else none
    | _ => none

/-- A round of the loop of `append_turn_rows`. -/
def appendEntry (entries : List PulseEntry) (s : TurnRows) : PulseEntry → Option TurnRows
  | .userInput _ text =>
    some (s.push (if Text.isEmpty (Text.trim text) then [] else [.userInput text]))
  | .assistantBlock _ block => some (s.appendAssistantBlock block)
  | .toolCall _ id name input status =>
    s.appendToolCall env name input status (toolResult entries id)
  | .systemNotice _ message severity =>
    some (s.push [if severity = .error then .error message else .plain message])
  | .toolResult .. | .approvalRequest .. | .approvalResolved .. | .commandSession .. => some s

end TurnRows

def appendTurnRows (rows : List TranscriptRow) (entries : List PulseEntry) : Option (List TranscriptRow) :=
  (entries.foldlM (TurnRows.appendEntry env entries) { rows }).map TurnRows.rows

/-! ### The rows of the document -/

def hasStreamedContent (entries : List PulseEntry) : Bool :=
  entries.any fun entry =>
    match entry with
    | .assistantBlock .. | .toolCall .. | .toolResult .. => true
    | _ => false

def waitingLine (progress : Option StreamPromptProgress) : String :=
  match progress.bind fun p => p.processed, progress.bind fun p => p.total with
  | some processed, some total => waitingForResponseLine ++ s!" progress:{processed}/{total}"
  | _, _ => waitingForResponseLine

def appendActiveTurnRows (active : ActiveTurnDocument) : Option (List TranscriptRow) := do
  let rows ← appendTurnRows env [] active.entries
  some (if hasStreamedContent active.entries then rows
    else rows ++ [.waitingPlaceholder (waitingLine active.promptProgress)])

def projectActiveTranscriptRows : Option ActiveTurnDocument → Option (List TranscriptRow)
  | some active => appendActiveTurnRows env active
  | none => some []

def compactionRow (record : ContextCompactionRecord) : TranscriptRow :=
  .plain ("[context compacted: " ++ record.summary ++ "]")

/-- The loop over the completed turns: the compactions up to a turn stand in front of it. -/
def committedRows : ℕ → List ContextCompactionRecord → List TurnDocument → List TranscriptRow →
    Option (List TranscriptRow)
  | _, compactions, [], rows => some (rows ++ compactions.map compactionRow)
  | turnIdx, compactions, completed :: turns, rows => do
    let due (record : ContextCompactionRecord) := decide (record.turnIndex ≤ turnIdx)
    let rows ← appendTurnRows env (rows ++ (compactions.takeWhile due).map compactionRow) completed.entries
    committedRows (turnIdx + 1) (compactions.dropWhile due) turns rows

def projectCommittedTranscriptRows (taskDoc : TaskDocument)
    (contextCompaction : List ContextCompactionRecord) (preSessionNotices : List String) :
    Option (List TranscriptRow) :=
  committedRows env 0 contextCompaction taskDoc.completedTurns (preSessionNotices.map .plain)

def projectTranscriptRows (taskDoc : TaskDocument)
    (contextCompaction : List ContextCompactionRecord) (preSessionNotices : List String) :
    Option (List TranscriptRow) := do
  let rows ← projectCommittedTranscriptRows env taskDoc contextCompaction preSessionNotices
  let activeRows ← projectActiveTranscriptRows env taskDoc.activePulse
  some (rows ++ activeRows)

/-! ### The rows can be made -/

theorem toolTarget_completes (firstLine inputPreview : String) :
    Completes (toolTarget firstLine inputPreview) := by
  refine .bind (toolTargetSummary_completes firstLine) fun target => ?_
  cases target with
  | some target => exact .pure _
  | none => exact toolTargetSummary_completes inputPreview

theorem pendingToolParagraphRows_completes (name inputPreview : String) (lifecycle : StepLifecycle) :
    Completes (pendingToolParagraphRows name inputPreview lifecycle) :=
  .bind (toolTargetSummary_completes inputPreview) fun _ => .pure _

theorem completedToolParagraphRows_completes (name : String) (input : Value) (output : String)
    (isError : Bool) : Completes (completedToolParagraphRows env name input output isError) := by
  refine .bind (toolTarget_completes _ _) fun target => ?_
  exact .bind (compactOutcomeSummary_completes _) fun outcome => .pure _

theorem TurnRows.appendToolCall_completes (s : TurnRows) (name : String) (input : Value)
    (status : ToolStatus) (result : Option (String × Bool)) :
    Completes (s.appendToolCall env name input status result) := by
  cases result with
  | some result =>
    obtain ⟨output, isError⟩ := result
    refine .bind (toolTarget_completes _ _) fun target => .ite (.pure _) ?_
    exact .bind (completedToolParagraphRows_completes env name input output isError) fun _ => .pure _
  | none =>
    refine .bind (toolTargetSummary_completes _) fun target => .ite (.pure _) ?_
    exact .bind (pendingToolParagraphRows_completes _ _ _) fun _ => .pure _

theorem TurnRows.appendEntry_completes (entries : List PulseEntry) (s : TurnRows)
    (entry : PulseEntry) : Completes (s.appendEntry env entries entry) := by
  cases entry with
  | toolCall stepId id name input status => exact appendToolCall_completes env s name input status _
  | userInput | assistantBlock | toolResult | approvalRequest | approvalResolved | commandSession
  | systemNotice => exact .pure _

theorem appendTurnRows_completes (rows : List TranscriptRow) (entries : List PulseEntry) :
    Completes (appendTurnRows env rows entries) :=
  .map _ (.foldlM (TurnRows.appendEntry_completes env entries) _ _)

theorem committedRows_completes (turns : List TurnDocument) (turnIdx : ℕ)
    (compactions : List ContextCompactionRecord) (rows : List TranscriptRow) :
    Completes (committedRows env turnIdx compactions turns rows) := by
  induction turns generalizing turnIdx compactions rows with
  | nil => exact .pure _
  | cons completed turns ih => exact .bind (appendTurnRows_completes env _ _) fun rows => ih _ _ _

theorem projectActiveTranscriptRows_completes (active : Option ActiveTurnDocument) :
    Completes (projectActiveTranscriptRows env active) := by
  cases active with
  | none => exact .pure _
  | some active => exact .bind (appendTurnRows_completes env _ _) fun rows => .pure _

/-- **The transcript of every task document can be shown.** -/
theorem projectTranscriptRows_completes (taskDoc : TaskDocument)
    (contextCompaction : List ContextCompactionRecord) (preSessionNotices : List String) :
    Completes (projectTranscriptRows env taskDoc contextCompaction preSessionNotices) := by
  refine .bind (committedRows_completes env _ _ _ _) fun rows => ?_
  exact .bind (projectActiveTranscriptRows_completes env _) fun activeRows => .pure _

end Vexcoder.App

import Vexcoder.Conversation.Manager

/-!
# Streaming into the task document

The operations by which the stream of a round and the tools it calls are worked into the task
document and shown to the user interface.
-/

namespace Vexcoder.Conversation

open Base Lib Lib.Assoc Lib.Emitter Vexcoder.Runtime Vexcoder.Task

/-- What `incoming` adds to `existing`: the rest of it when it repeats the whole of `existing`, and
nothing when it is the beginning of `existing`. -/
def boundedIncrementalSuffix (existing incoming : String) : String :=
  let old := existing.toList
  let new := incoming.toList
  if new.isEmpty then ""
  else if old.length < new.length && old.isPrefixOf new then String.ofList (new.drop old.length)
  else if new.length ≤ old.length && new.isPrefixOf old then ""
  else incoming

def lastBlock? (index : ℕ) (entries : List PulseEntry) : Option AssistantBlockEntry :=
  entries.reverse.findSome? fun entry =>
    match entry with
    | .assistantBlock _ block => if block.blockIndex = index then some block else none
    | _ => none

/-- The name and the input of the first call with the id, and its place among the entries. -/
def firstCall? (toolCallId : String) : ℕ → List PulseEntry → Option (ℕ × String × Value)
  | _, [] => none
  | i, entry :: entries =>
    match entry with
    | .toolCall _ id name input _ =>
      if id = toolCallId then some (i, name, input) else firstCall? toolCallId (i + 1) entries
    | _ => firstCall? toolCallId (i + 1) entries

def lastCallName? (toolCallId : String) (entries : List PulseEntry) : Option String :=
  entries.reverse.findSome? fun entry =>
    match entry with
    | .toolCall _ id name _ _ => if id = toolCallId then some name else none
    | _ => none

def maxInlinePadGap : ℕ := 2048

variable (env : Environment)

/-- A placeholder for a block that the stream has skipped. -/
def padBlock (padIndex : ℕ) : Emitter ConversationManager Report Unit := do
  applyDocDelta env (.transcriptBlockStart padIndex (.thinking "" true))
  modify fun m => { m with currentRoundStreamBlockCount := m.currentRoundStreamBlockCount + 1 }
  emitStreamUpdate (.blockStart padIndex (.thinking "" true))

def emitStreamBlockStartUpdate (index : ℕ) (block : StreamBlock) :
    Emitter ConversationManager Report Unit := do
  let m ← read
  let gap := index - m.currentRoundStreamBlockCount
  onlyIf (gap ≤ maxInlinePadGap) (forEach (List.range' m.currentRoundStreamBlockCount gap) (padBlock env))
  modify fun m => { m with currentRoundStreamBlockCount := index + 1 }
  emitStreamUpdate (.blockStart index block)

def recordToolCallStartedAt (toolCallId : String) (startedAt : ℤ) :
    Emitter ConversationManager Report Unit :=
  modify fun m =>
    { m with toolCallStartedAt := insertLast toolCallId startedAt m.toolCallStartedAt }

def takeToolCallTiming (toolCallId : String) (completedAt : ℕ) :
    Emitter ConversationManager Report (Option String × Option ℕ) := do
  let m ← read
  match find? toolCallId m.toolCallStartedAt with
  | none => pure (none, none)
  | some startedAt => do
    modify fun m => { m with toolCallStartedAt := erase toolCallId m.toolCallStartedAt }
    pure (some (env.formatTimestamp startedAt), some ((completedAt : ℤ) - startedAt).toNat)

def toolResultSignal (toolCallId : String) (toolName : Option String) (output : String)
    (isError : Bool) (completedAt : ℕ) : Emitter ConversationManager Report RuntimeSignal := do
  let completedAtValue := env.formatTimestamp completedAt
  let (startedAt, durationMs) ← takeToolCallTiming env toolCallId completedAt
  if isError then
    pure (.toolCallFailed toolCallId toolName .error startedAt completedAtValue durationMs output)
  else
    pure (.toolCallCompleted toolCallId toolName .complete startedAt completedAtValue durationMs output)

/-- The signal of `upsert_turn_block`. -/
def applyBlockStart (index : ℕ) (block : StreamBlock) : Emitter ConversationManager Report Unit :=
  match block with
  | .thinking .. | .finalText _ => applyDocDelta env (.transcriptBlockStart index block)
  | .toolCall id name input status => do
    let startedAt ← readClock env
    recordToolCallStartedAt id startedAt
    applyDocDelta env (.toolCallStarted id name input status (env.formatTimestamp startedAt))
  | .toolResult .. => pure ()

def upsertTurnBlock (index : ℕ) (block : StreamBlock) : Emitter ConversationManager Report Unit := do
  applyBlockStart env index block
  emitStreamBlockStartUpdate env index block

/-- The text that the delta has added. -/
def appendTextDelta (index : ℕ) (text : String) : Emitter ConversationManager Report String := do
  let m ← read
  match lastBlock? index m.activeEntries with
  | none => do
    upsertTurnBlock env index (.thinking text false)
    pure text
  | some block =>
    let delta := boundedIncrementalSuffix block.content text
    if Text.isEmpty delta then pure ""
    else do
      applyDocDelta env (.transcriptBlockDelta index delta)
      emitStreamUpdate (.blockDelta index delta)
      pure delta

def setToolCallStatus (toolCallId : String) (status : ToolStatus) :
    Emitter ConversationManager Report Unit := do
  let m ← read
  match firstCall? toolCallId 0 m.activeEntries with
  | none => pure ()
  | some (index, name, input) => do
    applyDocDelta env (.toolCallStatusUpdated toolCallId status)
    emitStreamUpdate (.blockStart index (.toolCall toolCallId name input status))

def pushToolResultBlock (toolCallId output : String) (isError : Bool) :
    Emitter ConversationManager Report Unit := do
  let m ← read
  let completedAt ← readClock env
  let signal ← toolResultSignal env toolCallId (lastCallName? toolCallId m.activeEntries) output
    isError completedAt
  applyDocDelta env signal
  let m ← read
  let index := m.activeEntries.length - 1
  emitStreamUpdate (.blockStart index (.toolResult toolCallId output isError))
  emitStreamUpdate (.blockComplete index)

def promoteBlock (blockIndex : ℕ) : Emitter ConversationManager Report Unit := do
  applyDocDelta env (.transcriptBlockPhaseUpdated blockIndex .final false)
  emitStreamUpdate (.blockStart blockIndex (.finalText ""))

def promoteThinkingBlocksToFinalText : Emitter ConversationManager Report Unit := do
  let m ← read
  let promotions := (m.activeEntries.drop m.currentRoundEntryStart).filterMap fun entry =>
    match entry with
    | .assistantBlock _ block =>
      if block.phase = .thinking && !block.collapsed then some block.blockIndex else none
    | _ => none
  forEach promotions (promoteBlock env)

/-- `emit_server_metadata_update`: metadata without progress and timings is not shown. -/
def emitServerMetadataUpdate (metadata : StreamChunkMetadata) :
    Emitter ConversationManager Report Unit :=
  onlyIf (metadata.promptProgress.isSome || metadata.timings.isSome)
    (emitStreamUpdate (.serverMetadata metadata))

end Vexcoder.Conversation

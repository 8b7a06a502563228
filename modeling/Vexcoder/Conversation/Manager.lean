import Vexcoder.Conversation.History
import Vexcoder.Conversation.ToolResults
import Vexcoder.Lib.Emitter
import Vexcoder.Task.Condenser

/-!
# The conversation manager

The state of a conversation, what it shows while it runs, and the operations on its task document.
A `Report` is an update sent to the user interface or another act of the conversation that can be
seen from outside: a request to the provider, an answer, the panic of the assertion that no pulse is
open.
-/

namespace Vexcoder.Conversation

open Base Lib Lib.Assoc Lib.Emitter Vexcoder.Runtime Vexcoder.Task

inductive ConversationStreamUpdate where
  | delta (text : String)
  | blockStart (index : ℕ) (block : StreamBlock)
  | blockDelta (index : ℕ) (delta : String)
  | toolCallArgumentsUpdated (toolCallId : String) (toolName : Option String) (arguments : Value)
  | blockComplete (index : ℕ)
  | toolApprovalRequest (request : ToolApprovalRequest)
  | transcriptLine (line : String)
  | serverMetadata (metadata : StreamChunkMetadata)
  | commandSessionStarted (sessionId : ℕ) (command : String)
  | commandSessionAttached (sessionId : ℕ) (pid : Option ℕ)
  | commandSessionFinished (sessionId : ℕ)
  | contextCompacted (messagesBefore messagesAfter : ℕ) (summary : String)
  | streamError (message : String)
  deriving DecidableEq

inductive Report where
  | update (update : ConversationStreamUpdate)
  /-- A turn is open in the task document. -/
  | turnBegun (input : String)
  /-- `begin_turn` panics: "no pulse is open" does not hold. -/
  | assertionFailed
  /-- `create_stream` is called. -/
  | request (messages : List ApiMessage)
  /-- `create_stream` has returned a stream. -/
  | streamOpened
  /-- A read of `path` is answered with "no changes since last read". -/
  | answeredUnchanged (path output : String)
  /-- `send_message` returns. -/
  | returned (result : Except String String)
  | cancelled
  | cleared
  deriving DecidableEq

/-- `ConversationManager`; `clockReads` counts the readings of the clock. -/
structure ConversationManager where
  apiMessages : List ApiMessage := []
  taskDoc : Option TaskDocument := none
  currentRoundEntryStart : ℕ := 0
  currentRoundStreamBlockCount : ℕ := 0
  toolCallStartedAt : List (String × ℤ) := []
  lastTurnTokens : PulseTokens := {}
  readFileHistoryCache : ReadFileRollupCache := {}
  compactionConfig : CompactionConfig := {}
  clockReads : ℕ := 0

namespace ConversationManager

def activePulse (m : ConversationManager) : Option ActiveTurnDocument :=
  m.taskDoc.bind fun doc => doc.activePulse

def activeEntries (m : ConversationManager) : List PulseEntry :=
  match m.activePulse with
  | some active => active.entries
  | none => []

end ConversationManager

variable (env : Environment)

def emitStreamUpdate (u : ConversationStreamUpdate) : Emitter ConversationManager Report Unit :=
  emit (.update u)

def emitTextUpdate (text : String) : Emitter ConversationManager Report Unit :=
  emitStreamUpdate (.delta text)

/-- `now_millis`, `Utc::now` -/
def readClock : Emitter ConversationManager Report ℕ := do
  let m ← read
  modify fun m => { m with clockReads := m.clockReads + 1 }
  pure (env.clock m.clockReads)

def pushMessage (message : ApiMessage) : Emitter ConversationManager Report Unit :=
  modify fun m => { m with apiMessages := m.apiMessages ++ [message] }

def setMessages (messages : List ApiMessage) : Emitter ConversationManager Report Unit :=
  modify fun m => { m with apiMessages := messages }

def pushUserMessage (input : String) (cacheHint : Option String) :
    Emitter ConversationManager Report Unit :=
  pushMessage { role := "user", content := .text input, cacheHint }

def sharedPrefixCacheHint (sharedPrefixContext : Option String) : Option String :=
  ((sharedPrefixContext.map Text.trim).filter fun context => !Text.isEmpty context).bind
    env.client.sharedPrefixFingerprint

/-! ### The task document -/

def setTaskDoc (doc : TaskDocument) : Emitter ConversationManager Report Unit :=
  modify fun m => { m with taskDoc := some doc }

def ensureTaskDoc : Emitter ConversationManager Report Unit := do
  let m ← read
  match m.taskDoc with
  | some _ => pure ()
  | none => do
    let now ← readClock env
    setTaskDoc (TaskDocument.beginTask { updatedAtMs := now })

/-- `false` is the panic of `begin_turn`. -/
def beginTurnDoc (input : String) (toolPolicy : PulseToolPolicy) :
    Emitter ConversationManager Report Bool := do
  let m ← read
  match m.taskDoc with
  | none => do
    modify fun m => { m with currentRoundStreamBlockCount := 0, toolCallStartedAt := [] }
    pure true
  | some doc => do
    let now ← readClock env
    match doc.beginTurn input now toolPolicy with
    | none => pure false
    | some doc' => do
      setTaskDoc doc'
      modify fun m => { m with currentRoundStreamBlockCount := 0, toolCallStartedAt := [] }
      pure true

def finishTurnDoc (outcome : PulseOutcome) (tokens : PulseTokens) :
    Emitter ConversationManager Report Unit := do
  let m ← read
  match m.taskDoc with
  | none => modify fun m => { m with toolCallStartedAt := [] }
  | some doc => do
    let now ← readClock env
    setTaskDoc (doc.finishTurn outcome tokens now).1
    modify fun m => { m with toolCallStartedAt := [] }

def applyDocDelta (signal : RuntimeSignal) : Emitter ConversationManager Report Unit := do
  let m ← read
  match m.taskDoc with
  | none => pure ()
  | some doc => do
    let now ← readClock env
    let now' ← readClock env
    setTaskDoc (doc.applyRuntimeSignal now now' signal).1

def advanceRoundStart : Emitter ConversationManager Report Unit :=
  modify fun m =>
    { m with currentRoundEntryStart := m.activeEntries.length, currentRoundStreamBlockCount := 0 }

def clearMessages : Emitter ConversationManager Report Unit :=
  modify fun m =>
    { m with
      apiMessages := []
      taskDoc := none
      currentRoundEntryStart := 0
      currentRoundStreamBlockCount := 0
      toolCallStartedAt := []
      lastTurnTokens := {}
      readFileHistoryCache := {} }

end Vexcoder.Conversation

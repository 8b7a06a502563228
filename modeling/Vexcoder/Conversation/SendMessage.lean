import Vexcoder.Conversation.Rounds

/-!
# Sending a message

`send_message` as a machine.  A phase is a place where the future of the call stands: at one of its
awaits, or between two stretches of code that run without one.  An event is what an await returns,
`tick` where there is none.  The future may be dropped at every await (`cancel`), which leaves the
manager as it stands; the next message starts from there.
-/

namespace Vexcoder.Conversation

open Base Lib Lib.Emitter Vexcoder.Runtime Vexcoder.Task

inductive Phase where
  /-- No message is being answered. -/
  | idle
  | condensing (t : TurnState)
  | compacting (t : TurnState)
  /-- At the head of the loop. -/
  | roundTop (t : TurnState)
  /-- `create_stream` is awaited. -/
  | requesting (t : TurnState)
  /-- The next signal of the stream is awaited. -/
  | streaming (t : TurnState) (r : RoundState)
  | roundEnd (t : TurnState) (r : RoundState)
  /-- The sequential executor is about to take the next call. -/
  | executing (t : TurnState) (e : ToolRound)
  /-- `request_tool_approval` is awaited. -/
  | approving (t : TurnState) (e : ToolRound) (call : ToolCall)
  /-- `execute_tool_with_timeout_with_updates` is awaited. -/
  | running (t : TurnState) (e : ToolRound) (call : ToolCall)
  /-- `execute_parallel_tool_round` is awaited, with the calls of the round. -/
  | parallel (t : TurnState) (e : ToolRound)
  /-- The calls that the parallel executor has completed are worked through. -/
  | recording (t : TurnState) (e : ToolRound) (results : List (Except String String))
  deriving DecidableEq

inductive Event where
  | send (content : String) (turnToolPolicy : PulseToolPolicy) (sharedPrefixContext : Option String)
      (contextWindowTokens : ℕ)
  | tick
  | streamOpened
  | streamFailed (message : String)
  | signal (signal : RuntimeSignal)
  | streamError (message : String)
  | streamEnded
  | approvalAnswered (approved : Bool)
  | toolFinished (result : Except String String)
  | toolsFinished (results : List (Except String String))
  | cancel
  | clear
  deriving DecidableEq

def Phase.isAwait : Phase → Bool
  | .requesting _ | .streaming .. | .approving .. | .running .. | .parallel .. => true
  | _ => false

variable (env : Environment)

/-- `send_message` returns. -/
def returnTurn (outcome : PulseOutcome) (tokens : PulseTokens) (result : Except String String) :
    Emitter ConversationManager Report Phase := do
  finishTurnDoc env outcome tokens
  emit (.returned result)
  pure .idle

def returnGuarded (message : String) : Emitter ConversationManager Report Phase := do
  emitGuardLine message
  let m ← read
  returnTurn env .completed m.lastTurnTokens (.ok message)

def openTurn (content : String) (turnToolPolicy : PulseToolPolicy)
    (sharedPrefixContext : Option String) (contextWindowTokens : ℕ) :
    Emitter ConversationManager Report Phase := do
  emit (.turnBegun content)
  pushUserMessage content (sharedPrefixCacheHint env sharedPrefixContext)
  match builtinSupportedGitToolsResponse content with
  | some response => do
    pushMessage (assistantText response)
    emitTextUpdate response
    returnTurn env .completed {} (.ok response)
  | none => do
    let m ← read
    pure (.condensing {
      originalUserInput := content, turnToolPolicy, contextWindowTokens
      turnUserAnchorIndex := m.apiMessages.length - 1 })

def sendMessage (content : String) (turnToolPolicy : PulseToolPolicy)
    (sharedPrefixContext : Option String) (contextWindowTokens : ℕ) :
    Emitter ConversationManager Report Phase := do
  modify fun m => { m with lastTurnTokens := {} }
  ensureTaskDoc env
  let begun ← beginTurnDoc env content turnToolPolicy
  if begun then openTurn env content turnToolPolicy sharedPrefixContext contextWindowTokens
  else do
    emit .assertionFailed
    pure .idle

def condenseOld (t : TurnState) : Emitter ConversationManager Report Phase := do
  let m ← read
  setMessages (condenseOldToolResults m.apiMessages env.resolveHistoryKeepTurns)
  pure (.compacting t)

/-- The compaction that `run_proactive_compaction` makes of the history. -/
def proactiveCompaction (m : ConversationManager) (t : TurnState) :
    List ApiMessage × Option (ℕ × ℕ × String) :=
  runProactiveCompaction env.codec.toString m.compactionConfig env.client.isLocalEndpoint
    m.apiMessages t.contextWindowTokens t.requiresToolEvidence

def compactProactively (t : TurnState) : Emitter ConversationManager Report Phase := do
  let m ← read
  setMessages (proactiveCompaction env m t).1
  match (proactiveCompaction env m t).2 with
  | none => pure (.roundTop t)
  | some (before, after, _) => do
    emitStreamUpdate (.contextCompacted before after
      (toString before ++ " → " ++ toString after ++ " messages (proactive)"))
    pure (.roundTop { t with preserveCurrentUserOnOverflow := true })

/-- The head of the loop, up to the call of `create_stream`. -/
def startRound (t : TurnState) : Emitter ConversationManager Report Phase := do
  advanceRoundStart
  let m ← read
  let (messages, anchor) := pruneMessageHistoryPreserving m.apiMessages
    env.resolveHistoryLimits.maxApiMessages t.turnUserAnchorIndex
  setMessages messages
  let t := { t with turnUserAnchorIndex := anchor, rounds := t.rounds + 1 }
  if env.resolveMaxToolRounds < t.rounds && t.finalAnswerAttempted then do
    let message := renderLoopLimitGuardMessage t.lastAssistantTextForHistory env.resolveMaxToolRounds
    emitGuardLine message
    returnTurn env .maxTurnsReached {} (.ok message)
  else do
    onlyIf (env.resolveMaxToolRounds < t.rounds) (pushMessage (userText finalAnswerInstruction))
    let m ← read
    emit (.request m.apiMessages)
    pure (.requesting
      { t with finalAnswerAttempted := t.finalAnswerAttempted || env.resolveMaxToolRounds < t.rounds })

def overflowKeepMessages (overflowRetryCount : ℕ) : ℕ :=
  match overflowRetryCount with
  | 0 => 4
  | 1 => 2
  | _ => 1

def TurnState.overflowPreserveIndex (t : TurnState) (messages : List ApiMessage) : ℕ :=
  if t.preserveCurrentUserOnOverflow then t.turnUserAnchorIndex else messages.length

def streamFailed (t : TurnState) (message : String) : Emitter ConversationManager Report Phase := do
  if t.overflowRetryCount < 3 && isContextOverflow message then do
    let m ← read
    let keepMessages := overflowKeepMessages t.overflowRetryCount
    let (messages, anchor) := compactForContextOverflowPreserving m.apiMessages keepMessages
      (t.overflowPreserveIndex m.apiMessages)
    setMessages messages
    emitStreamUpdate (.contextCompacted m.apiMessages.length messages.length
      ("compacted " ++ toString m.apiMessages.length ++ " → " ++ toString messages.length ++
        " messages to fit server window (keep " ++ toString keepMessages ++ ")"))
    pure (.roundTop { t with
      turnUserAnchorIndex := if t.preserveCurrentUserOnOverflow then anchor else t.turnUserAnchorIndex
      overflowRetryCount := t.overflowRetryCount + 1
      rounds := t.rounds - 1 })
  else returnTurn env (.failed message) t.turnTokens (.error message)

/-- A round without calls: the model is asked again for evidence, or the turn ends. -/
def endWithoutCalls (t : TurnState) (text : String) : Emitter ConversationManager Report Phase := do
  let missingEvidence := env.client.isLocalEndpoint && t.requiresToolEvidence && !t.sawAnyToolRound
  if missingEvidence && t.forcedToolRetryCount < 2 && t.rounds < env.resolveMaxToolRounds then do
    pushMessage (userText toolRetryInstruction)
    pure (.roundTop { t with forcedToolRetryCount := t.forcedToolRetryCount + 1 })
  else if missingEvidence then returnGuarded env (renderMissingToolEvidenceGuardMessage text)
  else do
    promoteThinkingBlocksToFinalText env
    modify fun m => { m with lastTurnTokens := t.turnTokens }
    returnTurn env .completed t.turnTokens (.ok text)

def startCalls (t : TurnState) (blocks : List ContentBlock) (useStructuredRound : Bool) :
    Emitter ConversationManager Report Phase := do
  let e : ToolRound := { useStructuredRound, remaining := blocks.filterMap ContentBlock.toolCall? }
  if shouldParallelizeToolRound blocks env.toolApprovalEnabled then do
    forEach e.remaining fun call => setToolCallStatus env call.id .executing
    pure (.parallel t e)
  else pure (.executing t e)

/-- The end of the stream, up to the first call or the next round. -/
def endRound (t : TurnState) (r : RoundState) : Emitter ConversationManager Report Phase := do
  let blocks := r.openCalls
  let t := t.countRound env blocks
  match roundVerdict env t blocks r.assistantText with
  | .stop message => returnGuarded env message
  | .nudge => do
    pushMessage (assistantMessage env blocks r.assistantText (r.useStructuredRound env))
    pushMessage (userText repeatedToolRoundInstruction)
    pure (.roundTop { t with
      repeatedRoundNudgeUsed := true, lastAssistantTextForHistory := r.assistantText })
  | .proceed => do
    pushMessage (assistantMessage env blocks r.assistantText (r.useStructuredRound env))
    let t := { t with lastAssistantTextForHistory := r.assistantText }
    if blocks.isEmpty then endWithoutCalls env t r.assistantText
    else startCalls env t blocks (r.useStructuredRound env)

def finishCalls (t : TurnState) (e : ToolRound) : Emitter ConversationManager Report Phase := do
  pushMessage e.resultMessage
  pure (.roundTop t)

def takeCall (t : TurnState) (e : ToolRound) (call : ToolCall) :
    Emitter ConversationManager Report Phase := do
  match guardClarification env t call with
  | some clarification => do
    let e ← refuseCall env e call clarification
    pure (.executing t e)
  | none =>
    if env.toolApprovalEnabled || toolRequiresConfirmation call.name then do
      setToolCallStatus env call.id .waitingApproval
      emitStreamUpdate (.toolApprovalRequest
        { toolName := call.name, inputPreview := toolInputPreview env call.name call.input })
      pure (.approving t e call)
    else do
      setToolCallStatus env call.id .executing
      pure (.running t e call)

def answerApproval (t : TurnState) (e : ToolRound) (call : ToolCall) (approved : Bool) :
    Emitter ConversationManager Report Phase := do
  if approved then do
    setToolCallStatus env call.id .executing
    pure (.running t e call)
  else do
    let e ← denyCall env e call
    pure (.executing t e)

def finishTool (t : TurnState) (e : ToolRound) (call : ToolCall) (result : Except String String) :
    Emitter ConversationManager Report Phase := do
  let (t, e) ← recordResult env t e call result
  pure (.executing t e)

/-- The result of a call of the parallel executor: a guard answers in place of the tool. -/
def parallelResult (t : TurnState) (call : ToolCall) (result : Except String String) :
    Except String String :=
  match parallelGuard env t call with
  | some clarification => .error clarification
  | none => result

/-- What an event does in a phase; where it cannot happen there is no step. -/
def advance (phase : Phase) (event : Event) : Emitter ConversationManager Report Phase :=
  match phase, event with
  | .idle, .send content turnToolPolicy sharedPrefixContext contextWindowTokens =>
    sendMessage env content turnToolPolicy sharedPrefixContext contextWindowTokens
  | .idle, .clear => do
    clearMessages
    emit .cleared
    pure .idle
  | .condensing t, .tick => condenseOld env t
  | .compacting t, .tick => compactProactively env t
  | .roundTop t, .tick => startRound env t
  | .requesting t, .streamOpened => do
    emit .streamOpened
    pure (.streaming { t with overflowRetryCount := 0 } {})
  | .requesting t, .streamFailed message => streamFailed env t message
  | .streaming t r, .signal signal => do
    let (t, r) ← receiveSignal env t r signal
    pure (.streaming t r)
  | .streaming t _, .streamError message =>
    returnTurn env (.failed message) t.turnTokens (.error message)
  | .streaming t r, .streamEnded => pure (.roundEnd t r)
  | .roundEnd t r, .tick => endRound env t r
  | .executing t e, .tick =>
    match e.remaining with
    | [] => finishCalls t e
    | call :: remaining => takeCall env t { e with remaining } call
  | .approving t e call, .approvalAnswered approved => answerApproval env t e call approved
  | .running t e call, .toolFinished result => finishTool env t e call result
  | .parallel t e, .toolsFinished results =>
    if results.length = e.remaining.length then
      pure (.recording t e (List.zipWith (parallelResult env t) e.remaining results))
    else crash
  | .recording t e results, .tick =>
    match e.remaining, results with
    | call :: remaining, result :: results => do
      let (t, e) ← recordResult env t { e with remaining } call result
      pure (.recording t e results)
    | _, _ => finishCalls t e
  | _, .cancel =>
    if phase.isAwait then do
      emit .cancelled
      pure .idle
    else crash
  | _, _ => crash

/-- The steps there are.  What holds of each of them, and where there is no step, holds of every event
in every phase. -/
theorem advance_cases {M : Phase → Event → Emitter ConversationManager Report Phase → Prop}
    (crash : ∀ phase event, M phase event crash)
    (send : ∀ content policy sharedPrefix window, M .idle (.send content policy sharedPrefix window)
      (sendMessage env content policy sharedPrefix window))
    (clear : M .idle .clear (do clearMessages; emit .cleared; pure .idle))
    (condensing : ∀ t, M (.condensing t) .tick (condenseOld env t))
    (compacting : ∀ t, M (.compacting t) .tick (compactProactively env t))
    (roundTop : ∀ t, M (.roundTop t) .tick (startRound env t))
    (opened : ∀ t, M (.requesting t) .streamOpened (do
      emit .streamOpened; pure (.streaming { t with overflowRetryCount := 0 } {})))
    (failed : ∀ t message, M (.requesting t) (.streamFailed message) (streamFailed env t message))
    (signal : ∀ t r signal, M (.streaming t r) (.signal signal) (do
      let (t, r) ← receiveSignal env t r signal
      pure (.streaming t r)))
    (streamError : ∀ t r message, M (.streaming t r) (.streamError message)
      (returnTurn env (.failed message) t.turnTokens (.error message)))
    (ended : ∀ t r, M (.streaming t r) .streamEnded (pure (.roundEnd t r)))
    (roundEnd : ∀ t r, M (.roundEnd t r) .tick (endRound env t r))
    (callsDone : ∀ t e, e.remaining = [] → M (.executing t e) .tick (finishCalls t e))
    (call : ∀ t e call remaining, e.remaining = call :: remaining →
      M (.executing t e) .tick (takeCall env t { e with remaining } call))
    (approval : ∀ t e call approved, M (.approving t e call) (.approvalAnswered approved)
      (answerApproval env t e call approved))
    (tool : ∀ t e call result, M (.running t e call) (.toolFinished result) (finishTool env t e call result))
    (tools : ∀ t e results, results.length = e.remaining.length →
      M (.parallel t e) (.toolsFinished results)
        (pure (.recording t e (List.zipWith (parallelResult env t) e.remaining results))))
    (recorded : ∀ t e results, e.remaining = [] ∨ results = [] →
      M (.recording t e results) .tick (finishCalls t e))
    (record : ∀ t e call remaining result results, e.remaining = call :: remaining →
      M (.recording t e (result :: results)) .tick (do
        let (t, e) ← recordResult env t { e with remaining } call result
        pure (.recording t e results)))
    (cancel : ∀ phase, phase.isAwait = true → M phase .cancel (do emit .cancelled; pure .idle))
    (phase : Phase) (event : Event) : M phase event (advance env phase event) := by
  by_cases hevent : event = .cancel
  · subst hevent
    have hcancel : advance env phase .cancel =
        if phase.isAwait then (do emit .cancelled; pure .idle) else Emitter.crash := by
      cases phase <;> rfl
    rw [hcancel]
    split
    · rename_i hawait
      exact cancel phase hawait
    · exact crash phase .cancel
  · cases phase with
    | idle =>
      cases event with
      | send content policy sharedPrefix window => exact send content policy sharedPrefix window
      | clear => exact clear
      | cancel => exact absurd rfl hevent
      | _ => exact crash _ _
    | condensing t =>
      cases event with
      | tick => exact condensing t
      | cancel => exact absurd rfl hevent
      | _ => exact crash _ _
    | compacting t =>
      cases event with
      | tick => exact compacting t
      | cancel => exact absurd rfl hevent
      | _ => exact crash _ _
    | roundTop t =>
      cases event with
      | tick => exact roundTop t
      | cancel => exact absurd rfl hevent
      | _ => exact crash _ _
    | requesting t =>
      cases event with
      | streamOpened => exact opened t
      | streamFailed message => exact failed t message
      | cancel => exact absurd rfl hevent
      | _ => exact crash _ _
    | streaming t r =>
      cases event with
      | signal σ => exact signal t r σ
      | streamError message => exact streamError t r message
      | streamEnded => exact ended t r
      | cancel => exact absurd rfl hevent
      | _ => exact crash _ _
    | roundEnd t r =>
      cases event with
      | tick => exact roundEnd t r
      | cancel => exact absurd rfl hevent
      | _ => exact crash _ _
    | executing t e =>
      cases event with
      | tick =>
        simp only [advance]
        split
        · rename_i hremaining
          exact callsDone t e hremaining
        · rename_i next remaining hremaining
          exact call t e next remaining hremaining
      | cancel => exact absurd rfl hevent
      | _ => exact crash _ _
    | approving t e next =>
      cases event with
      | approvalAnswered approved => exact approval t e next approved
      | cancel => exact absurd rfl hevent
      | _ => exact crash _ _
    | running t e next =>
      cases event with
      | toolFinished result => exact tool t e next result
      | cancel => exact absurd rfl hevent
      | _ => exact crash _ _
    | parallel t e =>
      cases event with
      | toolsFinished results =>
        simp only [advance]
        split
        · rename_i hlength
          exact tools t e results hlength
        · exact crash _ _
      | cancel => exact absurd rfl hevent
      | _ => exact crash _ _
    | recording t e results =>
      cases event with
      | tick =>
        cases hremaining : e.remaining with
        | nil =>
          simp only [advance, hremaining]
          exact recorded t e results (Or.inl hremaining)
        | cons next remaining =>
          cases results with
          | nil =>
            simp only [advance, hremaining]
            exact recorded t e [] (Or.inr rfl)
          | cons result results =>
            simp only [advance, hremaining]
            exact record t e next remaining result results hremaining
      | cancel => exact absurd rfl hevent
      | _ => exact crash _ _

/-- The manager and the place where the call to it stands. -/
structure Machine where
  manager : ConversationManager := {}
  phase : Phase := .idle

/-- One event of a conversation. -/
def step (event : Event) : Emitter Machine Report Unit := fun c =>
  match advance env c.phase event c.manager with
  | none => none
  | some (phase, reports, manager) => some ((), reports, { manager, phase })

def run (events : List Event) : Emitter Machine Report Unit := forEach events (step env)

/-! ### A sample environment -/

/-- The input of a call that reads the file `a`. -/
def sampleInput : Value := .object [("path", .string "a")]

/-- What `read_file` returns for a file of two lines. -/
def sampleOutput : String := "    1\tx\n    2\ty"

def sampleEnvironment : Environment where
  client := {
    toolCallMode := .structured, toolPolicy := .full, isLocalEndpoint := false
    sharedPrefixFingerprint := fun _ => none }
  var := fun _ => none
  clock := fun _ => 0
  codec := {
    fromStr := fun _ => none
    toString := fun value => if value = sampleInput then "\x7b\"path\":\"a\"\x7d".toList else []
    parseF64 := fun _ => none }
  toStringPretty := fun value =>
    if value = sampleInput then "\x7b\n  \"path\": \"a\"\n\x7d" else ""
  hashContent := fun content => if content = sampleOutput then 14231146634656355629 else 0
  formatEditHunks := fun _ _ _ _ => ""
  parseTimestamp := fun _ => none
  formatTimestamp := fun _ => "1970-01-01T00:00:00.000Z"

def sampleRequest (content : String) : List Event :=
  [.send content .default none 8192, .tick, .tick, .tick]

/-- The model calls `read_file` on `a`, and the call is allowed and run. -/
def sampleRead (id : String) : List Event :=
  [.streamOpened, .signal (.toolCallStarted id "read_file" sampleInput .pending ""), .streamEnded,
    .tick, .tick, .approvalAnswered true, .toolFinished (.ok sampleOutput), .tick, .tick]

end Vexcoder.Conversation

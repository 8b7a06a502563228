import Vexcoder.Handoff.Updates

/-!
# The local API

A task of the local API is a conversation that a client follows as a stream of envelopes.  Its state is
shared by `LocalApiMode`, which is told of the user's input, of interrupts and of the updates of the
model's side, and by the handler of the requests that approve or deny a capability.

What a call does to the outside is recorded as a list of `Action`s behind the call itself: the envelopes
sent, the answers to requests for approval, and the two calls on the runtime context.
-/

namespace Vexcoder.Server

open Lib Lib.Emitter Vexcoder.Runtime Handoff
open Base (Value)

/-- `UiUpdate`.  The channel of the answer to a request for approval is a number. -/
inductive ModelUpdate where
  | transcriptLine (line : String)
  | streamDelta (text : String)
  | streamBlockStart (index : ℕ) (block : StreamBlock)
  | streamBlockDelta (index : ℕ) (delta : String)
  | streamBlockComplete (index : ℕ)
  | toolCallArgumentsUpdated (toolCallId : String) (toolName : Option String) (arguments : Value)
  | toolApprovalRequest (request : ToolApprovalRequest) (responseTx : ℕ)
  | serverMetadata (metadata : StreamChunkMetadata)
  | commandSessionStarted (sessionId : ℕ) (command : String)
  | commandSessionAttached (sessionId : ℕ) (pid : Option ℕ)
  | editLoopComplete
  | commandSessionFinished (sessionId : ℕ)
  | pulseComplete
  | error (message : String)
  | contextCompacted (messagesBefore messagesAfter : ℕ) (summary : String)

inductive RuntimeRequest where
  | submitInput (requestId : String) (taskId : Option String) (input : String)
  | interrupt (requestId taskId : String)
  | approveCapability (requestId taskId capability scope : String)
  | denyCapability (requestId taskId capability : String)

inductive Event where
  | userInput (input : String)
  | interrupt
  | modelUpdate (update : ModelUpdate)
  | request (request : RuntimeRequest)

inductive Action where
  /-- The call that the following actions belong to. -/
  | called (event : Event)
  | sent (envelope : RuntimeEnvelope)
  | answered (responseTx : ℕ) (approved : Bool)
  /-- `RuntimeContext::start_pulse_with_system_prompt_and_policy` -/
  | startedPulse (input : String)
  /-- `RuntimeContext::cancel_pulse` -/
  | cancelledPulse

structure PendingApproval where
  capability : String
  scope : String
  responseTx : ℕ

structure LocalApiTaskShared where
  normalizer : RuntimeEnvelopeNormalizer
  pendingApproval : Option PendingApproval := none
  quit : Bool := false
  turnInProgress : Bool := false
  interrupted : Bool := false
  activeCommandSessions : List ℕ := []
  turnCompletionPending : Bool := false

def LocalApiTaskShared.new (taskId : String) : LocalApiTaskShared where
  normalizer := { taskId }

abbrev Shared := Emitter LocalApiTaskShared Action

def emitEnvelopes (x : Emit Unit) : Shared Unit :=
  zoom LocalApiTaskShared.normalizer (fun normalizer s => { s with normalizer }) Action.sent x

variable (host : Host)

open RuntimeEnvelopeNormalizer

def emitEnvelope (x : Emit RuntimeEnvelope) : Shared Unit :=
  emitEnvelopes do
    let envelope ← x
    emit envelope

/-! ### The mode -/

def completeTurnIfIdle : Shared Unit := do
  let s ← read
  if !s.turnCompletionPending || !s.activeCommandSessions.isEmpty then pure ()
  else do
    modify fun s => { s with turnCompletionPending := false, turnInProgress := false, quit := true }
    emitEnvelopes
      (if s.interrupted then finishTurnWithStatus host "cancelled" {}
      else normalizeUiUpdate host .pulseComplete (some {}))

def onUserInput (input : String) : Shared Unit := do
  modify fun s => { s with
    turnInProgress := true
    interrupted := false
    activeCommandSessions := []
    turnCompletionPending := false
    quit := false }
  emitEnvelope (startPulse host 1 (some input))
  emit (.startedPulse input)

def onInterrupt : Shared Unit := do
  let s ← read
  if !s.turnInProgress then pure ()
  else do
    modify fun s => { s with interrupted := true }
    emit .cancelledPulse

def capabilityAndScope : RuntimeSignal → String × String
  | .approvalRequest capability scope _ => (capability, scope)
  | _ => ("unknown", "once")

def onModelUpdate : ModelUpdate → Shared Unit
  | .transcriptLine line => emitEnvelopes (normalizeUiUpdate host (.transcriptLine line) none)
  | .streamDelta text => emitEnvelopes (normalizeUiUpdate host (.streamDelta text) none)
  | .streamBlockStart index block =>
    emitEnvelopes (normalizeUiUpdate host (.streamBlockStart index block) none)
  | .streamBlockDelta index delta =>
    emitEnvelopes (normalizeUiUpdate host (.streamBlockDelta index delta) none)
  | .streamBlockComplete index =>
    emitEnvelopes (normalizeUiUpdate host (.streamBlockComplete index) none)
  | .toolApprovalRequest request responseTx => do
    let signal := approvalRequestSignal request
    let (capability, scope) := capabilityAndScope signal
    modify fun s => { s with pendingApproval := some { capability, scope, responseTx } }
    emitEnvelope (emitSignal host signal)
  | .serverMetadata _ => pure ()
  | .pulseComplete => do
    modify fun s => { s with turnCompletionPending := true }
    completeTurnIfIdle host
  | .error message => do
    modify fun s => { s with
      activeCommandSessions := []
      turnCompletionPending := false
      turnInProgress := false
      quit := true }
    emitEnvelopes (RuntimeEnvelopeNormalizer.emitError host "runtime_error" message false {})
  | .commandSessionStarted sessionId _ =>
    modify fun s => { s with activeCommandSessions := s.activeCommandSessions.insert sessionId }
  | .commandSessionAttached .. | .toolCallArgumentsUpdated .. | .editLoopComplete
  | .contextCompacted .. => pure ()
  | .commandSessionFinished sessionId => do
    modify fun s => { s with activeCommandSessions := s.activeCommandSessions.erase sessionId }
    completeTurnIfIdle host

/-! ### Requests -/

def RuntimeRequest.requestId : RuntimeRequest → String
  | .submitInput requestId .. | .interrupt requestId _ | .approveCapability requestId ..
  | .denyCapability requestId .. => requestId

def approvalResolutionSignal : RuntimeRequest → Option RuntimeSignal
  | .approveCapability _ _ capability scope => some (.approvalResolved capability scope true)
  | .denyCapability _ _ capability => some (.approvalResolved capability "once" false)
  | .submitInput .. | .interrupt .. => none

def normalizeRuntimeRequest (request : RuntimeRequest) : Emit Unit :=
  forSome (approvalResolutionSignal request) fun signal => do
    let envelope ← nextEnvelopeWithContext host signal (some request.requestId) none
    emit envelope

/-- Whether the request resolves the pending approval: the answer it gives. -/
def resolves (pending : PendingApproval) : RuntimeRequest → Option Bool
  | .approveCapability _ _ capability scope =>
    if pending.capability = capability ∧ pending.scope = scope then some true else none
  | .denyCapability _ _ capability => if pending.capability = capability then some false else none
  | .submitInput .. | .interrupt .. => none

/-- The pending approval is taken, and put back where the request does not resolve it. -/
def resolvePending (request : RuntimeRequest) : Shared (Except String Unit) := do
  let s ← read
  match s.pendingApproval with
  | none => pure (.error "no_pending_approval")
  | some pending =>
    match resolves pending request with
    | none => pure (.error "no_pending_approval")
    | some approved => do
      modify fun s => { s with pendingApproval := none }
      emit (.answered pending.responseTx approved)
      emitEnvelopes (normalizeRuntimeRequest host request)
      pure (.ok ())

/-- `approve_handler`, when the task of the request is this one. -/
def approveHandler (request : RuntimeRequest) : Shared (Except String Unit) :=
  match request with
  | .submitInput .. | .interrupt .. => pure (.error "invalid_request_type")
  | .approveCapability .. | .denyCapability .. => resolvePending host request

/-! ### Runs -/

def handle : Event → Shared Unit
  | .userInput input => onUserInput host input
  | .interrupt => onInterrupt
  | .modelUpdate update => onModelUpdate host update
  | .request request => do
    let _ ← approveHandler host request
    pure ()

def step (event : Event) : Shared Unit := do
  emit (.called event)
  handle host event

def run (events : List Event) : Shared Unit := forEach events (step host)

end Vexcoder.Server

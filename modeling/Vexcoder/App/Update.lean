import Vexcoder.Runtime.Signals

/-!
# The updates of the terminal interface

`UiUpdate`: what a turn, an edit loop and the command sessions send to the terminal interface.  The
answer channel of a request for approval is not part of the update; a request is known by its number
among the requests that are received.
-/

namespace Vexcoder.App

open Base Vexcoder.Runtime

inductive EditLoopOutcome where
  | success (patchApplied validatePassed : Bool)
  | maxTurnsReached (lastError : Option String)
  | approvalDenied
  | cancelled

structure ValidationOutput where
  label : String
  exitCode : ℤ

/-- What is read of a `ValidationResult` here. -/
structure ValidationResult where
  passed : Bool
  outputs : List ValidationOutput

inductive UiUpdate where
  | transcriptLine (line : String)
  | streamDelta (text : String)
  | streamBlockStart (index : ℕ) (block : StreamBlock)
  | streamBlockDelta (index : ℕ) (delta : String)
  | toolCallArgumentsUpdated (toolCallId : String) (toolName : Option String) (arguments : Value)
  | streamBlockComplete (index : ℕ)
  | toolApprovalRequest (request : ToolApprovalRequest)
  | serverMetadata (metadata : StreamChunkMetadata)
  | commandSessionStarted (sessionId : ℕ) (command : String)
  | commandSessionAttached (sessionId : ℕ) (pid : Option ℕ)
  | editLoopComplete (outcome : EditLoopOutcome) (lastValidationResult : Option ValidationResult)
  | commandSessionFinished (sessionId : ℕ)
  | pulseComplete
  | error (message : String)
  | contextCompacted (messagesBefore messagesAfter : ℕ) (summary : String)

end Vexcoder.App

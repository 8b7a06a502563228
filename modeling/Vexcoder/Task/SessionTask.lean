import Vexcoder.Task.Document

/-!
# Session tasks

A task that an agent works on under a parent task.  The random part of an id and the milliseconds of
the clock are arguments.
-/

namespace Vexcoder.Task

inductive SessionTaskStatus where
  | pending
  | running
  | blocked
  | failed
  | cancelled
  | completed
  deriving DecidableEq

def SessionTaskStatus.isLive : SessionTaskStatus → Bool
  | .pending | .running | .blocked => true
  | .failed | .cancelled | .completed => false

structure SessionTask where
  id : String
  parentTaskId : String
  agentId : String
  prompt : String
  lifecycleState : SessionTaskStatus
  worktreePath : Option String := none
  startedAt : Option ℕ := none
  updatedAt : ℕ := 0
  lastHeartbeat : Option ℕ := none
  handoffSummary : Option String := none
  supersedes : List String := []
  deriving DecidableEq

namespace SessionTask

/-- `SessionTask::new`; `uuid` is the random part of the id. -/
def new (parentTaskId agentId prompt : String) (worktreePath : Option String) (uuid : String)
    (now : ℕ) : SessionTask :=
  { id := parentTaskId ++ "-" ++ agentId ++ "-" ++ uuid
    parentTaskId, agentId, prompt, lifecycleState := .pending, worktreePath, updatedAt := now }

def stampJoinSupersedes (task : SessionTask) (existing : List SessionTask)
    (sequentialContinuation : Bool) : SessionTask :=
  { task with
    supersedes :=
      if sequentialContinuation then existing.map SessionTask.id
      else (existing.filter fun earlier => earlier.agentId = task.agentId).map SessionTask.id }

def transitionTo (task : SessionTask) (status : SessionTaskStatus) (now now' : ℕ) : SessionTask :=
  { task with
    startedAt := if task.startedAt.isNone && status == .running then some now else task.startedAt
    lifecycleState := status
    updatedAt := now' }

end SessionTask

end Vexcoder.Task

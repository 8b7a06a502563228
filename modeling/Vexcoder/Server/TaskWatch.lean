import Vexcoder.Subtask.Interleaving

/-!
# Watching a session task

Requests to the server change the status of session tasks and release them: each looks the task up, saves
the state of its parent and publishes what the task is then.  `watch_session_task_handler` subscribes,
sends the task as it finds it and then what is published, but for what is not later than what it has sent.
The steps of all requests and of one watcher follow each other in any order; each save reads the clock.
-/

namespace Vexcoder.Server

open Vexcoder.Task Subtask

/-- `FacadeSessionTaskRollup`, which is also what a frame holds. -/
structure SessionTaskRollup where
  id : String
  parentTaskId : String
  agentId : String
  lifecycleState : String
  worktreePath : Option String
  startedAtMs : Option ℕ
  updatedAtMs : ℕ
  handoffSummary : Option String
deriving DecidableEq

def statusDisplay : SessionTaskStatus → String
  | .pending => "pending"
  | .running => "running"
  | .blocked => "blocked"
  | .failed => "failed"
  | .cancelled => "cancelled"
  | .completed => "completed"

def sessionTaskToRollup (task : SessionTask) : SessionTaskRollup :=
  { id := task.id, parentTaskId := task.parentTaskId, agentId := task.agentId
    lifecycleState := statusDisplay task.lifecycleState, worktreePath := task.worktreePath
    startedAtMs := task.startedAt, updatedAtMs := task.updatedAt
    handoffSummary := task.handoffSummary }

def lifecycleStateIsTerminal (state : String) : Bool :=
  state == "failed" || state == "cancelled" || state == "completed"

/-- A snapshot of the task that ends its stream. -/
def SessionTaskRollup.isFinalOf (rollup : SessionTaskRollup) (id : String) : Bool :=
  decide (rollup.id = id) && lifecycleStateIsTerminal rollup.lifecycleState

theorem lifecycleStateIsTerminal_display (status : SessionTaskStatus) :
    lifecycleStateIsTerminal (statusDisplay status) = !status.isLive := by
  cases status <;> decide

/-! ### The requests -/

inductive TaskRequest where
  | updateStatus (sessionTaskId status : String)
  | release (sessionTaskId : String)

/-- A change of a status that is to be saved; `releases` when a release makes it. -/
structure StatusChange where
  sessionTaskId : String
  status : SessionTaskStatus
  releases : Bool

inductive RequestPhase where
  | idle
  | begun (request : TaskRequest)
  | loaded (change : StatusChange) (state : TaskState)
  /-- In front of the release of the lease. -/
  | releasing (sessionTaskId : String)
  /-- In front of the second lookup of a release. -/
  | released (sessionTaskId : String)
  | publishing (rollup : SessionTaskRollup)
  | done (accepted : Bool)

/-- The handler of the watch: what it has received and not looked at, and what it has sent. -/
inductive Watcher where
  | idle
  | subscribed (queue : List SessionTaskRollup)
  | refused
  | watching (lastUpdatedAt : ℕ) (queue frames : List SessionTaskRollup)
  | ended (frames : List SessionTaskRollup)

namespace Watcher

def frames : Watcher → List SessionTaskRollup
  | .watching _ _ frames | .ended frames => frames
  | .idle | .subscribed _ | .refused => []

def queue : Watcher → List SessionTaskRollup
  | .subscribed queue | .watching _ queue _ => queue
  | .idle | .refused | .ended _ => []

/-- `publish_session_task_rollup`: a subscriber finds it in its channel. -/
def hears (rollup : SessionTaskRollup) : Watcher → Watcher
  | .subscribed queue => .subscribed (queue ++ [rollup])
  | .watching lastUpdatedAt queue frames => .watching lastUpdatedAt (queue ++ [rollup]) frames
  | watcher => watcher

def isSubscribed : Watcher → Bool
  | .subscribed _ | .watching .. => true
  | .idle | .refused | .ended _ => false

def isWatching : Watcher → Bool
  | .watching .. => true
  | .idle | .subscribed _ | .refused | .ended _ => false

/-- A terminal snapshot of the task is in its channel, or has been sent. -/
def hasFinal (id : String) : Watcher → Bool
  | .subscribed queue | .watching _ queue _ => queue.any fun rollup => rollup.isFinalOf id
  | .ended _ => true
  | .idle | .refused => false

end Watcher

/-- The server, one watcher, and the versions that the watched task has had. -/
structure TaskServer where
  store : Store
  phases : ℕ → RequestPhase := fun _ => .idle
  watcher : Watcher := .idle
  history : List SessionTask := []

inductive TaskEvent where
  | request (i : ℕ) (request : TaskRequest)
  | load (i : ℕ)
  /-- `now_millis` is read when the task starts, when it changes and when the state is touched. -/
  | save (i started now touched : ℕ)
  | releaseLease (i : ℕ)
  | lookUpAgain (i : ℕ)
  | publish (i : ℕ)
  | subscribe
  | readInitial
  | receive

variable (host : StoreHost) (id : String)

/-- `facade_get_session_task` where it does not fail. -/
def taskIn (store : Store) (sessionTaskId : String) : Option SessionTask :=
  match store.findSessionTask host sessionTaskId with
  | .ok (some (_, task)) => some task
  | .ok none | .error _ => none

/-- The state with the change, as `update_session_task_status` makes it. -/
def StatusChange.apply (change : StatusChange) (state : TaskState) (started now touched : ℕ) :
    TaskState :=
  state.setSessionTask change.sessionTaskId (fun task => task.transitionTo change.status started now) touched

namespace TaskServer

def setPhase (s : TaskServer) (i : ℕ) (phase : RequestPhase) : TaskServer :=
  { s with phases := Function.update s.phases i phase }

/-- What is stored of the watched task is its newest version. -/
def record (s : TaskServer) (store : Store) : TaskServer :=
  { s with
    store
    history := match taskIn host store id with
      | none => s.history
      | some task => if s.history.getLast? = some task then s.history else s.history ++ [task] }

/-- The lookup of a request, with the check that comes with it. -/
def load (s : TaskServer) (i : ℕ) : TaskRequest → TaskServer
  | .updateStatus sessionTaskId status =>
    match parseSessionTaskStatus status with
    | none => s.setPhase i (.done false)
    | some status =>
      match s.store.findSessionTask host sessionTaskId with
      | .ok (some (state, existing)) =>
        if existing.lifecycleState.isLive then
          s.setPhase i (.loaded { sessionTaskId, status, releases := false } state)
        else s.setPhase i (.done false)
      | .ok none | .error _ => s.setPhase i (.done false)
  | .release sessionTaskId =>
    match s.store.findSessionTask host sessionTaskId with
    | .ok (some (state, _)) =>
      if (state.sessionTask sessionTaskId).any fun task => task.lifecycleState.isLive then
        s.setPhase i (.loaded { sessionTaskId, status := .completed, releases := true } state)
      else s.setPhase i (.releasing sessionTaskId)
    | .ok none | .error _ => s.setPhase i (.done false)

def afterSave (change : StatusChange) (saved : TaskState) : RequestPhase :=
  if change.releases then .releasing change.sessionTaskId
  else match saved.sessionTask change.sessionTaskId with
    | none => .done false
    | some updated => .publishing (sessionTaskToRollup updated)

def save (s : TaskServer) (i : ℕ) (change : StatusChange) (state : TaskState)
    (started now touched : ℕ) : TaskServer :=
  match s.store.save host (change.apply state started now touched) with
  | (store, .error _) => { s with store }.setPhase i (.done false)
  | (store, .ok ()) =>
    (s.record host id store).setPhase i (afterSave change (change.apply state started now touched))

def releaseLease (s : TaskServer) (i : ℕ) (sessionTaskId : String) : TaskServer :=
  match host.releaseLease sessionTaskId with
  | .error _ => s.setPhase i (.done false)
  | .ok () => s.setPhase i (.released sessionTaskId)

def lookUpAgain (s : TaskServer) (i : ℕ) (sessionTaskId : String) : TaskServer :=
  match s.store.findSessionTask host sessionTaskId with
  | .error _ => s.setPhase i (.done false)
  | .ok none => s.setPhase i (.done true)
  | .ok (some (_, task)) => s.setPhase i (.publishing (sessionTaskToRollup task))

/-- `facade_get_session_task`, the first frame and the terminal check. -/
def readInitial (s : TaskServer) (queue : List SessionTaskRollup) : Watcher :=
  match taskIn host s.store id with
  | none => .refused
  | some task =>
    let rollup := sessionTaskToRollup task
    if lifecycleStateIsTerminal rollup.lifecycleState then .ended [rollup]
    else .watching rollup.updatedAtMs queue [rollup]

def receive (lastUpdatedAt : ℕ) (snapshot : SessionTaskRollup)
    (queue frames : List SessionTaskRollup) : Watcher :=
  if snapshot.id ≠ id then .watching lastUpdatedAt queue frames
  else
    let isTerminal := lifecycleStateIsTerminal snapshot.lifecycleState
    if snapshot.updatedAtMs ≤ lastUpdatedAt then
      if isTerminal then .ended frames else .watching lastUpdatedAt queue frames
    else if isTerminal then .ended (frames ++ [snapshot])
    else .watching snapshot.updatedAtMs queue (frames ++ [snapshot])

def step (s : TaskServer) : TaskEvent → TaskServer
  | .request i request =>
    match s.phases i with
    | .idle => s.setPhase i (.begun request)
    | _ => s
  | .load i =>
    match s.phases i with
    | .begun request => s.load host i request
    | _ => s
  | .save i started now touched =>
    match s.phases i with
    | .loaded change state => s.save host id i change state started now touched
    | _ => s
  | .releaseLease i =>
    match s.phases i with
    | .releasing sessionTaskId => s.releaseLease host i sessionTaskId
    | _ => s
  | .lookUpAgain i =>
    match s.phases i with
    | .released sessionTaskId => s.lookUpAgain host i sessionTaskId
    | _ => s
  | .publish i =>
    match s.phases i with
    | .publishing rollup => { s with watcher := s.watcher.hears rollup }.setPhase i (.done true)
    | _ => s
  | .subscribe =>
    match s.watcher with
    | .idle => { s with watcher := .subscribed [] }
    | _ => s
  | .readInitial =>
    match s.watcher with
    | .subscribed queue => { s with watcher := s.readInitial host id queue }
    | _ => s
  | .receive =>
    match s.watcher with
    | .watching lastUpdatedAt (snapshot :: queue) frames =>
      { s with watcher := receive id lastUpdatedAt snapshot queue frames }
    | _ => s

def run (s : TaskServer) (events : List TaskEvent) : TaskServer := events.foldl (step host id) s

def start (store : Store) : TaskServer := { store, history := (taskIn host store id).toList }

/-! ### What a watcher is promised -/

/-- No request is between its save and its publication, and what was published is received. -/
def Quiet (s : TaskServer) : Prop :=
  s.watcher.queue = [] ∧ ∀ i, match s.phases i with
    | .releasing _ | .released _ | .publishing _ => False
    | .idle | .begun _ | .loaded .. | .done _ => True

def lifecycleStates (frames : List SessionTaskRollup) : List String :=
  frames.map SessionTaskRollup.lifecycleState

def statuses (history : List SessionTask) : List String :=
  history.map fun task => statusDisplay task.lifecycleState

structure WatchesTruly (s : TaskServer) : Prop where
  /-- The states that were sent are a subsequence of those the task had. -/
  subsequence : (lifecycleStates s.watcher.frames).Sublist (statuses s.history)
  /-- A stream that has ended has sent the terminal status, and it is the last one. -/
  endsWithFinal : ∀ frames, s.watcher = .ended frames → ∃ status,
    lifecycleStateIsTerminal status = true ∧ (statuses s.history).getLast? = some status ∧
      (lifecycleStates frames).getLast? = some status
  /-- When all is said the stream does not go on behind the terminal status. -/
  comesToEnd : s.Quiet → ∀ status, (statuses s.history).getLast? = some status →
    lifecycleStateIsTerminal status = true → ∀ lastUpdatedAt queue frames,
      s.watcher ≠ .watching lastUpdatedAt queue frames

/-- A save of the watched task does not come in an earlier millisecond than its stored version, nor in the
same one where it ends a task that is being watched; it comes before a terminal snapshot is in the channel,
and is what the next lookup finds.  A save of another task leaves what it finds.  The lease of a task that is
being watched is released.  A terminal snapshot is published while it is what is stored. -/
def orderly (s : TaskServer) : TaskEvent → Bool
  | .save i started now touched =>
    match s.phases i with
    | .loaded change state =>
      let saved := change.apply state started now touched
      let store := (s.store.save host saved).1
      !(s.store.save host saved).2.isOk ||
        if change.sessionTaskId = id then
          !s.watcher.hasFinal id && taskIn host store id == saved.sessionTask id &&
            (taskIn host s.store id).all fun task => decide (task.updatedAt ≤ now) &&
              (!s.watcher.isWatching || change.status.isLive || decide (task.updatedAt < now))
        else taskIn host store id == taskIn host s.store id
    | _ => true
  | .releaseLease i =>
    match s.phases i with
    | .releasing sessionTaskId =>
      !s.watcher.isWatching || sessionTaskId ≠ id || (host.releaseLease id).isOk
    | _ => true
  | .publish i =>
    match s.phases i with
    | .publishing rollup =>
      !s.watcher.isSubscribed || !rollup.isFinalOf id ||
        (taskIn host s.store id).map sessionTaskToRollup == some rollup
    | _ => true
  | .request .. | .load _ | .lookUpAgain _ | .subscribe | .readInitial | .receive => true

def allOrderly (s : TaskServer) : List TaskEvent → Bool
  | [] => true
  | event :: events => s.orderly host id event && allOrderly (s.step host id event) events

/-! ### The invariant -/

/-- The request will publish the task as it is in the end. -/
def Carries (final : SessionTask) (phase : RequestPhase) : Prop :=
  phase = .publishing (sessionTaskToRollup final) ∨ phase = .releasing id ∨ phase = .released id

/-- What was sent are versions of the task, in order: live ones, or live ones and the final one. -/
def Sent (history : List SessionTask) : Watcher → Prop
  | .watching lastUpdatedAt _ frames => ∃ seen newest,
      frames = (seen ++ [newest]).map sessionTaskToRollup ∧ (seen ++ [newest]).Sublist history ∧
        lastUpdatedAt = newest.updatedAt ∧
        ∀ task ∈ seen ++ [newest], task.lifecycleState.isLive = true
  | .ended frames => ∃ seen newest,
      frames = (seen ++ [newest]).map sessionTaskToRollup ∧ (seen ++ [newest]).Sublist history ∧
        history.getLast? = some newest ∧ newest.lifecycleState.isLive = false
  | .idle | .subscribed _ | .refused => True

/-- A final version that was not sent is later than all others, and it is in the channel or a request will
publish it. -/
def Told (history : List SessionTask) (phases : ℕ → RequestPhase) (watcher : Watcher) : Prop :=
  watcher.isWatching = true → ∀ final, history.getLast? = some final → final.lifecycleState.isLive = false →
    (∀ task ∈ history.dropLast, task.updatedAt < final.updatedAt) ∧
      (sessionTaskToRollup final ∈ watcher.queue ∨ ∃ i, Carries id final (phases i))

def Versions (history : List SessionTask) (rollup : SessionTaskRollup) : Prop :=
  rollup.id = id → ∃ task ∈ history, sessionTaskToRollup task = rollup

/-- A snapshot in the channel is of a version, and a terminal one of the newest. -/
def Heard (history : List SessionTask) (rollup : SessionTaskRollup) : Prop :=
  rollup.id = id → ∃ task ∈ history, sessionTaskToRollup task = rollup ∧
    (task.lifecycleState.isLive = false → history.getLast? = some task)

structure Follows (s : TaskServer) : Prop where
  stored : taskIn host s.store id = s.history.getLast?
  inOrder : s.history.Pairwise fun task later => task.updatedAt ≤ later.updatedAt
  named : ∀ task ∈ s.history, task.id = id
  loaded : ∀ i change state, s.phases i = .loaded change state →
    (state.sessionTask change.sessionTaskId).isSome = true
  published : ∀ i rollup, s.phases i = .publishing rollup → Versions id s.history rollup
  queued : ∀ rollup ∈ s.watcher.queue, Heard id s.history rollup
  sent : Sent s.history s.watcher
  told : Told id s.history s.phases s.watcher

variable {host id} {s : TaskServer}

/-! ### Lookups -/

variable {store : Store} {sessionTaskId : String} {task final : SessionTask}
  {state saved : TaskState} {change : StatusChange} {history : List SessionTask}
  {rollup : SessionTaskRollup} {i : ℕ} {watcher : Watcher}

theorem taskIn_eq_some (h : taskIn host store sessionTaskId = some task) :
    ∃ state, store.findSessionTask host sessionTaskId = .ok (some (state, task)) := by
  rw [taskIn] at h
  split at h
  · rename_i state task' hfound
    cases h
    exact ⟨state, hfound⟩
  all_goals cases h

theorem taskIn_of_find (h : store.findSessionTask host sessionTaskId = .ok (some (state, task))) :
    taskIn host store sessionTaskId = some task := by
  rw [taskIn, h]

theorem sessionTask_id (h : state.sessionTask sessionTaskId = some task) : task.id = sessionTaskId := by
  have hfound := List.find?_some h
  exact of_decide_eq_true hfound

theorem taskIn_id (h : taskIn host store sessionTaskId = some task) : task.id = sessionTaskId := by
  obtain ⟨state, hfound⟩ := taskIn_eq_some h
  exact sessionTask_id (findListed_mem hfound).2

theorem sessionTask_apply (started now touched : ℕ)
    (h : (state.sessionTask change.sessionTaskId).isSome = true) :
    ∃ task, (change.apply state started now touched).sessionTask change.sessionTaskId = some task ∧
      task.updatedAt = now ∧ task.lifecycleState = change.status := by
  obtain ⟨task, htask⟩ := Option.isSome_iff_exists.mp h
  have hid := sessionTask_id htask
  refine ⟨task.transitionTo change.status started now, ?_, rfl, rfl⟩
  exact find?_modify_findIdx htask (decide_eq_true hid)

/-! ### Changes of a part -/

theorem follows_start (store : Store) : Follows host id (start host id store) := by
  have hstored : taskIn host store id = (taskIn host store id).toList.getLast? := by
    cases taskIn host store id <;> rfl
  have hinOrder : (taskIn host store id).toList.Pairwise
      fun task later => task.updatedAt ≤ later.updatedAt := by
    cases taskIn host store id with
    | none => exact .nil
    | some task => exact List.pairwise_singleton _ _
  refine
    { stored := hstored
      inOrder := hinOrder
      named := ?_
      loaded := fun _ _ _ h => by cases h
      published := fun _ _ h => by cases h
      queued := fun _ h => by cases h
      sent := trivial
      told := fun h => by cases h }
  intro task htask
  exact taskIn_id (Option.mem_toList.mp htask)

theorem phases_setPhase (s : TaskServer) (i j : ℕ) (phase : RequestPhase) :
    (s.setPhase i phase).phases j = if j = i then phase else s.phases j :=
  Function.update_apply s.phases i phase j

theorem Follows.setPhase (h : Follows host id s) {phase : RequestPhase}
    (hloaded : ∀ change state, phase = .loaded change state →
      (state.sessionTask change.sessionTaskId).isSome = true)
    (hpublished : ∀ rollup, phase = .publishing rollup → Versions id s.history rollup)
    (hkeeps : ∀ final, s.history.getLast? = some final → s.watcher.isWatching = true →
      Carries id final (s.phases i) →
        Carries id final phase ∨ sessionTaskToRollup final ∈ s.watcher.queue) :
    Follows host id (s.setPhase i phase) := by
  refine
    { stored := h.stored, inOrder := h.inOrder, named := h.named, queued := h.queued
      sent := h.sent, loaded := ?_, published := ?_, told := ?_ }
  · intro j change state hj
    rw [phases_setPhase] at hj
    split at hj
    · exact hloaded change state hj
    · exact h.loaded j change state hj
  · intro j rollup hj
    rw [phases_setPhase] at hj
    split at hj
    · exact hpublished rollup hj
    · exact h.published j rollup hj
  · intro hwatching final hfinal hterminal
    obtain ⟨hlate, hqueue | ⟨j, hcarries⟩⟩ := h.told hwatching final hfinal hterminal
    · exact ⟨hlate, .inl hqueue⟩
    refine ⟨hlate, ?_⟩
    by_cases hij : j = i
    · rw [hij] at hcarries
      obtain hphase | hqueue := hkeeps final hfinal hwatching hcarries
      · exact .inr ⟨i, by rw [phases_setPhase, if_pos rfl]; exact hphase⟩
      · exact .inl hqueue
    · exact .inr ⟨j, by rw [phases_setPhase, if_neg hij]; exact hcarries⟩

theorem Follows.watch (h : Follows host id s)
    (hqueued : ∀ rollup ∈ watcher.queue, Heard id s.history rollup)
    (hsent : Sent s.history watcher) (htold : Told id s.history s.phases watcher) :
    Follows host id { s with watcher } :=
  { stored := h.stored, inOrder := h.inOrder, named := h.named, loaded := h.loaded
    published := h.published, queued := hqueued, sent := hsent, told := htold }

theorem Follows.stop (h : Follows host id s) (hqueue : watcher.queue = [])
    (hwatching : watcher.isWatching = false) (hsent : Sent s.history watcher) :
    Follows host id { s with watcher } := by
  refine h.watch ?_ hsent fun hwatches => ?_
  · rw [hqueue]
    exact fun _ hmem => by cases hmem
  · rw [hwatching] at hwatches
    cases hwatches

/-! ### What a step keeps -/

theorem Follows.finish (h : Follows host id s) (accepted : Bool)
    (hcarries : ∀ final, s.history.getLast? = some final → ¬ Carries id final (s.phases i)) :
    Follows host id (s.setPhase i (.done accepted)) :=
  h.setPhase (fun _ _ hphase => by cases hphase) (fun _ hphase => by cases hphase)
    fun final hfinal _ hphase => absurd hphase (hcarries final hfinal)

theorem carries_releasing : Carries id final (.releasing sessionTaskId) ↔ sessionTaskId = id := by
  simp [Carries]

theorem carries_released : Carries id final (.released sessionTaskId) ↔ sessionTaskId = id := by
  simp [Carries]

theorem carries_publishing : Carries id final (.publishing rollup) ↔ rollup = sessionTaskToRollup final := by
  simp [Carries]

theorem not_carries_loaded : ¬ Carries id final (.loaded change state) := by
  simp [Carries]

theorem Follows.load (h : Follows host id s) {request : TaskRequest}
    (hphase : s.phases i = .begun request) : Follows host id (s.load host i request) := by
  have hcarries : ∀ final, s.history.getLast? = some final → ¬ Carries id final (s.phases i) := by
    simp [hphase, Carries]
  -- a phase that the request goes on with once the task is found
  have hgoes {sessionTaskId : String} {state : TaskState} {task : SessionTask}
      (hfound : s.store.findSessionTask host sessionTaskId = .ok (some (state, task)))
      (status : SessionTaskStatus) (releases : Bool) :
      Follows host id (s.setPhase i (.loaded { sessionTaskId, status, releases } state)) := by
    refine h.setPhase ?_ (fun _ hphase => by cases hphase)
      fun final hfinal _ hphase => absurd hphase (hcarries final hfinal)
    intro change state' heq
    cases heq
    rw [(findListed_mem hfound).2]
    rfl
  cases request with
  | updateStatus sessionTaskId status =>
    rw [TaskServer.load]
    split
    · exact h.finish false hcarries
    split
    · rename_i state existing hfound
      split
      · exact hgoes hfound _ _
      · exact h.finish false hcarries
    all_goals exact h.finish false hcarries
  | release sessionTaskId =>
    rw [TaskServer.load]
    split
    · rename_i state task hfound
      split
      · exact hgoes hfound _ _
      · exact h.setPhase (fun _ _ heq => by cases heq) (fun _ heq => by cases heq)
          fun final hfinal _ hphase => absurd hphase (hcarries final hfinal)
    all_goals exact h.finish false hcarries

theorem Follows.releaseLease (h : Follows host id s) (hphase : s.phases i = .releasing sessionTaskId)
    (horderly : s.watcher.isWatching = true → sessionTaskId = id →
      (host.releaseLease id).isOk = true) :
    Follows host id (s.releaseLease host i sessionTaskId) := by
  rw [TaskServer.releaseLease]
  split
  · rename_i error herror
    refine h.setPhase (fun _ _ heq => by cases heq) (fun _ heq => by cases heq) ?_
    intro final _ hwatching hcarries
    rw [hphase, carries_releasing] at hcarries
    have hok := horderly hwatching hcarries
    rw [← hcarries, herror] at hok
    cases hok
  · refine h.setPhase (fun _ _ heq => by cases heq) (fun _ heq => by cases heq) ?_
    intro final _ _ hcarries
    rw [hphase, carries_releasing] at hcarries
    exact .inl (carries_released.mpr hcarries)

theorem Follows.lookUpAgain (h : Follows host id s) (hphase : s.phases i = .released sessionTaskId) :
    Follows host id (s.lookUpAgain host i sessionTaskId) := by
  -- the final version is stored, so the lookup finds it
  have hstored {final : SessionTask} (hfinal : s.history.getLast? = some final)
      (hcarries : Carries id final (s.phases i)) :
      ∃ state, s.store.findSessionTask host sessionTaskId = .ok (some (state, final)) := by
    rw [hphase, carries_released] at hcarries
    rw [hcarries]
    exact taskIn_eq_some (h.stored.trans hfinal)
  rw [TaskServer.lookUpAgain]
  split
  · rename_i error hfound
    refine h.finish false fun final hfinal hcarries => ?_
    obtain ⟨state, hstate⟩ := hstored hfinal hcarries
    cases hfound.symm.trans hstate
  · rename_i hfound
    refine h.finish true fun final hfinal hcarries => ?_
    obtain ⟨state, hstate⟩ := hstored hfinal hcarries
    cases hfound.symm.trans hstate
  · rename_i state task hfound
    refine h.setPhase (fun _ _ heq => by cases heq) ?_ ?_
    · intro rollup heq hid
      cases heq
      have htask := taskIn_of_find hfound
      have hown : sessionTaskId = id := (taskIn_id htask).symm.trans hid
      rw [hown, h.stored] at htask
      exact ⟨task, List.mem_of_getLast? htask, rfl⟩
    · intro final hfinal _ hcarries
      obtain ⟨state', hstate⟩ := hstored hfinal hcarries
      cases hfound.symm.trans hstate
      exact .inl (carries_publishing.mpr rfl)

theorem mem_hears {other : SessionTaskRollup} : other ∈ (watcher.hears rollup).queue ↔
    other ∈ watcher.queue ∨ watcher.isSubscribed = true ∧ other = rollup := by
  cases watcher with
  | subscribed queue | watching lastUpdatedAt queue frames =>
    refine List.mem_append.trans (or_congr_right ?_)
    simp [Watcher.isSubscribed]
  | idle | refused | ended frames => simp [Watcher.hears, Watcher.queue, Watcher.isSubscribed]

theorem isWatching_hears : (watcher.hears rollup).isWatching = watcher.isWatching := by
  cases watcher <;> rfl

theorem sent_hears : Sent history (watcher.hears rollup) = Sent history watcher := by
  cases watcher <;> rfl

theorem isSubscribed_of_isWatching (h : watcher.isWatching = true) : watcher.isSubscribed = true := by
  cases watcher with
  | watching lastUpdatedAt queue frames => rfl
  | idle | subscribed queue | refused | ended frames => cases h

theorem rollup_terminal :
    lifecycleStateIsTerminal (sessionTaskToRollup task).lifecycleState = !task.lifecycleState.isLive :=
  lifecycleStateIsTerminal_display task.lifecycleState

theorem rollup_final (hid : (sessionTaskToRollup task).id = id) :
    (sessionTaskToRollup task).isFinalOf id = !task.lifecycleState.isLive := by
  rw [SessionTaskRollup.isFinalOf, rollup_terminal, decide_eq_true hid, Bool.true_and]

theorem Follows.publish (h : Follows host id s) (hphase : s.phases i = .publishing rollup)
    (horderly : s.watcher.isSubscribed = true → rollup.isFinalOf id = true →
      (taskIn host s.store id).map sessionTaskToRollup = some rollup) :
    Follows host id ({ s with watcher := s.watcher.hears rollup }.setPhase i (.done true)) := by
  have hheard : Follows host id { s with watcher := s.watcher.hears rollup } := by
    refine h.watch ?_ (by rw [sent_hears]; exact h.sent) ?_
    · intro other hother hid
      obtain hmem | ⟨hsubscribed, rfl⟩ := mem_hears.mp hother
      · exact h.queued other hmem hid
      obtain ⟨task, htask, rfl⟩ := h.published i other hphase hid
      cases hlive : task.lifecycleState.isLive with
      | true => exact ⟨task, htask, rfl, fun hterminal => by rw [hlive] at hterminal; cases hterminal⟩
      | false =>
        have hstored := horderly hsubscribed (by rw [rollup_final hid, hlive]; rfl)
        rw [h.stored] at hstored
        obtain ⟨final, hfinal, heq⟩ := Option.map_eq_some_iff.mp hstored
        exact ⟨final, List.mem_of_getLast? hfinal, heq, fun _ => hfinal⟩
    · intro hwatching final hfinal hterminal
      rw [isWatching_hears] at hwatching
      exact (h.told hwatching final hfinal hterminal).imp_right
        (Or.imp_left fun hqueue => mem_hears.mpr (.inl hqueue))
  refine hheard.setPhase (fun _ _ heq => by cases heq) (fun _ heq => by cases heq) ?_
  intro final _ hwatching hcarries
  have hcarried : Carries id final (s.phases i) := hcarries
  rw [hphase, carries_publishing] at hcarried
  rw [isWatching_hears] at hwatching
  exact .inr (mem_hears.mpr (.inr ⟨isSubscribed_of_isWatching hwatching, hcarried.symm⟩))

/-! ### The order of the versions -/

theorem eq_dropLast_append (h : history.getLast? = some final) : history = history.dropLast ++ [final] := by
  obtain ⟨init, rfl⟩ := List.getLast?_eq_some_iff.mp h
  rw [List.dropLast_concat]

theorem mem_dropLast_of_live (hfinal : history.getLast? = some final)
    (hterminal : final.lifecycleState.isLive = false) (htask : task ∈ history)
    (hlive : task.lifecycleState.isLive = true) : task ∈ history.dropLast := by
  rw [eq_dropLast_append hfinal] at htask
  obtain hmem | hmem := List.mem_append.mp htask
  · exact hmem
  · rw [List.mem_singleton.mp hmem, hterminal] at hlive
    cases hlive

theorem sublist_append_later {seen : List SessionTask}
    (hinOrder : history.Pairwise fun task later => task.updatedAt ≤ later.updatedAt)
    (hseen : seen.Sublist history) (htask : task ∈ history)
    (hlater : ∀ other ∈ seen, other.updatedAt < task.updatedAt) :
    (seen ++ [task]).Sublist history := by
  obtain ⟨before, after, rfl⟩ := List.append_of_mem htask
  obtain ⟨-, hafter, -⟩ := List.pairwise_append.mp hinOrder
  have hearlier := hseen.filter fun other => decide (other.updatedAt < task.updatedAt)
  have hkept : seen.filter (fun other => decide (other.updatedAt < task.updatedAt)) = seen :=
    List.filter_eq_self.mpr fun other hother => decide_eq_true (hlater other hother)
  have hfirst : (before.filter fun other => decide (other.updatedAt < task.updatedAt)).Sublist before :=
    List.filter_sublist
  have hnone : (task :: after).filter (fun other => decide (other.updatedAt < task.updatedAt)) = [] := by
    refine List.filter_eq_nil_iff.mpr fun other hother => ?_
    rw [decide_eq_true_iff]
    obtain rfl | hmem := List.mem_cons.mp hother
    · exact lt_irrefl _
    · have hle := (List.pairwise_cons.mp hafter).1 other hmem
      omega
  rw [hkept, List.filter_append, hnone, List.append_nil] at hearlier
  exact (hearlier.trans hfirst).append (List.singleton_sublist.mpr List.mem_cons_self)

/-! ### The watcher's steps -/

theorem Follows.readInitial (h : Follows host id s) {queue : List SessionTaskRollup}
    (hwatcher : s.watcher = .subscribed queue) :
    Follows host id { s with watcher := s.readInitial host id queue } := by
  rw [TaskServer.readInitial]
  cases htask : taskIn host s.store id with
  | none =>
    exact h.stop rfl rfl trivial
  | some task =>
    have hlast : s.history.getLast? = some task := by rw [← h.stored, htask]
    have hsublist : ([] ++ [task]).Sublist s.history :=
      List.singleton_sublist.mpr (List.mem_of_getLast? hlast)
    dsimp only
    rw [rollup_terminal]
    cases hlive : task.lifecycleState.isLive with
    | false => exact h.stop rfl rfl ⟨[], task, rfl, hsublist, hlast, hlive⟩
    | true =>
      refine h.watch ?_ ⟨[], task, rfl, hsublist, rfl, ?_⟩ ?_
      · intro rollup hmem
        exact h.queued rollup (by rw [hwatcher]; exact hmem)
      · intro other hother
        rw [List.mem_singleton.mp hother]
        exact hlive
      · -- the newest version is live
        intro _ final hfinal hterminal
        rw [hlast] at hfinal
        cases hfinal
        rw [hlive] at hterminal
        cases hterminal

theorem Follows.receive (h : Follows host id s) {lastUpdatedAt : ℕ} {snapshot : SessionTaskRollup}
    {queue frames : List SessionTaskRollup}
    (hwatcher : s.watcher = .watching lastUpdatedAt (snapshot :: queue) frames) :
    Follows host id { s with watcher := receive id lastUpdatedAt snapshot queue frames } := by
  have hqueued : ∀ rollup ∈ queue, Heard id s.history rollup := fun rollup hmem =>
    h.queued rollup (by rw [hwatcher]; exact List.mem_cons_of_mem _ hmem)
  have hheard : Heard id s.history snapshot :=
    h.queued snapshot (by rw [hwatcher]; exact List.mem_cons_self)
  have hsent := h.sent
  have htold := h.told
  rw [hwatcher] at hsent htold
  -- while the snapshot is not the final version, the rest of the channel has it
  have hrest (hother : ∀ final, s.history.getLast? = some final →
      final.lifecycleState.isLive = false → sessionTaskToRollup final ≠ snapshot) :
      ∀ lastUpdatedAt' frames', Told id s.history s.phases (.watching lastUpdatedAt' queue frames') := by
    intro _ _ _ final hfinal hterminal
    refine (htold rfl final hfinal hterminal).imp_right (Or.imp_left fun hmem => ?_)
    exact (List.mem_cons.mp hmem).resolve_left (hother final hfinal hterminal)
  rw [TaskServer.receive]
  by_cases hid : snapshot.id = id
  · rw [if_neg (not_not_intro hid)]
    obtain ⟨task, htask, rfl, hfinal⟩ := hheard hid
    obtain ⟨seen, newest, hframes, hsublist, hlast, hlive⟩ := hsent
    have hnewest : newest.lifecycleState.isLive = true :=
      hlive newest (List.mem_append_right _ List.mem_cons_self)
    have hmem : newest ∈ s.history :=
      hsublist.subset (List.mem_append_right _ List.mem_cons_self)
    rw [rollup_terminal]
    -- a live snapshot is not the final version
    have hgoes (htaskLive : task.lifecycleState.isLive = true) : ∀ final,
        s.history.getLast? = some final → final.lifecycleState.isLive = false →
          sessionTaskToRollup final ≠ sessionTaskToRollup task := by
      intro final _ hterminal heq
      have hsame : lifecycleStateIsTerminal (sessionTaskToRollup final).lifecycleState =
          lifecycleStateIsTerminal (sessionTaskToRollup task).lifecycleState := by rw [heq]
      rw [rollup_terminal, rollup_terminal, htaskLive, hterminal] at hsame
      cases hsame
    by_cases hold : (sessionTaskToRollup task).updatedAtMs ≤ lastUpdatedAt
    · rw [if_pos hold]
      cases htaskLive : task.lifecycleState.isLive with
      | false =>
        -- the final version is later than every live one
        have hlt := (htold rfl task (hfinal htaskLive) htaskLive).1 newest
          (mem_dropLast_of_live (hfinal htaskLive) htaskLive hmem hnewest)
        have hle : task.updatedAt ≤ newest.updatedAt := by rw [← hlast]; exact hold
        omega
      | true =>
        exact h.watch hqueued ⟨seen, newest, hframes, hsublist, hlast, hlive⟩
          (hrest (hgoes htaskLive) _ _)
    · rw [if_neg hold]
      have hlater : newest.updatedAt < task.updatedAt := by
        rw [← hlast]
        exact Nat.not_le.mp hold
      have hcontinues : ((seen ++ [newest]) ++ [task]).Sublist s.history := by
        refine sublist_append_later h.inOrder hsublist htask fun other hother => ?_
        obtain hother | hother := List.mem_append.mp hother
        · have hle := (List.pairwise_append.mp (h.inOrder.sublist hsublist)).2.2 other hother newest
            List.mem_cons_self
          omega
        · rw [List.mem_singleton.mp hother]
          exact hlater
      have hframes' : frames ++ [sessionTaskToRollup task] =
          ((seen ++ [newest]) ++ [task]).map sessionTaskToRollup := by
        simp [hframes]
      cases htaskLive : task.lifecycleState.isLive with
      | false =>
        exact h.stop rfl rfl
          ⟨seen ++ [newest], task, hframes', hcontinues, hfinal htaskLive, htaskLive⟩
      | true =>
        refine h.watch hqueued ⟨seen ++ [newest], task, hframes', hcontinues, rfl, ?_⟩
          (hrest (hgoes htaskLive) _ _)
        intro other hother
        obtain hother | hother := List.mem_append.mp hother
        · exact hlive other hother
        · rw [List.mem_singleton.mp hother]
          exact htaskLive
  · rw [if_pos hid]
    refine h.watch hqueued hsent (hrest ?_ _ _)
    intro final hfinal _ heq
    refine hid ?_
    rw [← heq]
    exact h.named final (List.mem_of_getLast? hfinal)

/-! ### The saves -/

theorem Follows.restore (h : Follows host id s)
    (hsame : taskIn host store id = taskIn host s.store id) : Follows host id { s with store } :=
  { stored := hsame.trans h.stored, inOrder := h.inOrder, named := h.named, loaded := h.loaded
    published := h.published, queued := h.queued, sent := h.sent, told := h.told }

theorem findListed_saves (store : Store) (saves : ℕ) (sessionTaskId : String) (files : List TaskStateFile) :
    ({ store with saves } : Store).findListed sessionTaskId files =
      store.findListed sessionTaskId files := by
  induction files with
  | nil => rfl
  | cons file files ih =>
    rw [Store.findListed, ih]
    rfl

theorem taskIn_failed {store' : Store} {error : String} (h : store.save host state = (store', .error error)) :
    taskIn host store' id = taskIn host store id := by
  rw [Store.save] at h
  split at h
  · cases h
    rw [taskIn, taskIn, Store.findSessionTask, findListed_saves]
    rfl
  · cases h

theorem afterSave_ne_loaded {other : StatusChange} : afterSave change saved ≠ .loaded other state := by
  rw [afterSave]
  split
  · exact RequestPhase.noConfusion
  · split <;> exact RequestPhase.noConfusion

theorem afterSave_publishing (h : afterSave change saved = .publishing rollup) : ∃ task,
      saved.sessionTask change.sessionTaskId = some task ∧ rollup = sessionTaskToRollup task := by
  rw [afterSave] at h
  split at h
  · cases h
  split at h
  · cases h
  · rename_i task htask
    cases h
    exact ⟨task, htask, rfl⟩

/-- A save that leaves what a lookup finds of the watched task. -/
theorem Follows.save_same (h : Follows host id s) (hphase : s.phases i = .loaded change state)
    (hsame : taskIn host store id = taskIn host s.store id)
    (hpublished : ∀ rollup, afterSave change saved = .publishing rollup → Versions id s.history rollup) :
    Follows host id ((s.record host id store).setPhase i (afterSave change saved)) := by
  have hrecord : s.record host id store = { s with store } := by
    rw [record, hsame, h.stored]
    cases hlast : s.history.getLast? with
    | none => rfl
    | some task =>
      dsimp only
      rw [if_pos rfl]
  rw [hrecord]
  refine (h.restore hsame).setPhase (fun other state' heq => absurd heq afterSave_ne_loaded)
    hpublished ?_
  intro final _ _ hcarries
  have hcarried : Carries id final (s.phases i) := hcarries
  rw [hphase] at hcarried
  exact absurd hcarried not_carries_loaded

theorem Follows.save_other (h : Follows host id s) (hphase : s.phases i = .loaded change state)
    (hother : change.sessionTaskId ≠ id) (hsame : taskIn host store id = taskIn host s.store id) :
    Follows host id ((s.record host id store).setPhase i (afterSave change saved)) := by
  refine h.save_same hphase hsame fun rollup heq hid => ?_
  obtain ⟨task, htask, rfl⟩ := afterSave_publishing heq
  exact absurd ((sessionTask_id htask).symm.trans hid) hother

theorem isFinalOf_of_hasFinal (h : watcher.hasFinal id = false) (hmem : rollup ∈ watcher.queue) :
    rollup.isFinalOf id = false := by
  cases watcher with
  | subscribed queue | watching lastUpdatedAt queue frames =>
    exact Bool.eq_false_iff.mpr (List.any_eq_false.mp h rollup hmem)
  | idle | refused | ended frames => cases hmem

theorem Follows.le_last (h : Follows host id s) (hfinal : s.history.getLast? = some final)
    (htask : task ∈ s.history) : task.updatedAt ≤ final.updatedAt := by
  have hinOrder := h.inOrder
  rw [eq_dropLast_append hfinal] at htask hinOrder
  obtain hmem | hmem := List.mem_append.mp htask
  · exact (List.pairwise_append.mp hinOrder).2.2 task hmem final List.mem_cons_self
  · rw [List.mem_singleton.mp hmem]

/-- The save of a new version of the watched task, before a terminal one is in the channel. -/
theorem Follows.save_new (h : Follows host id s) (hown : change.sessionTaskId = id)
    (hopen : s.watcher.hasFinal id = false)
    (hbefore : ∀ other ∈ s.history, other.updatedAt ≤ task.updatedAt)
    (hlater : s.watcher.isWatching = true → task.lifecycleState.isLive = false →
      ∀ other ∈ s.history, other.updatedAt < task.updatedAt)
    (hsaved : saved.sessionTask change.sessionTaskId = some task)
    (hfound : taskIn host store id = some task) (hnew : ¬ s.history.getLast? = some task) :
    Follows host id ((s.record host id store).setPhase i (afterSave change saved)) := by
  have hrecord : s.record host id store = { s with store, history := s.history ++ [task] } := by
    rw [record, hfound]
    dsimp only
    rw [if_neg hnew]
  rw [hrecord]
  refine
    { stored := ?_, inOrder := ?_, named := ?_, loaded := ?_, published := ?_, queued := ?_
      sent := ?_, told := ?_ }
  · show taskIn host store id = (s.history ++ [task]).getLast?
    rw [hfound, List.getLast?_concat]
  · refine List.pairwise_append.mpr ⟨h.inOrder, List.pairwise_singleton _ _, ?_⟩
    intro other hother later hmem
    rw [List.mem_singleton.mp hmem]
    exact hbefore other hother
  · intro other hother
    obtain hother | hother := List.mem_append.mp hother
    · exact h.named other hother
    · rw [List.mem_singleton.mp hother]
      exact (sessionTask_id hsaved).trans hown
  · intro j other state' hj
    rw [phases_setPhase] at hj
    split at hj
    · exact absurd hj afterSave_ne_loaded
    · exact h.loaded j other state' hj
  · intro j rollup hj
    rw [phases_setPhase] at hj
    split at hj
    · obtain ⟨task', htask', rfl⟩ := afterSave_publishing hj
      rw [hsaved] at htask'
      cases htask'
      exact fun _ => ⟨task, List.mem_append_right _ List.mem_cons_self, rfl⟩
    · intro hid
      obtain ⟨other, hother, heq⟩ := h.published j rollup hj hid
      exact ⟨other, List.mem_append_left _ hother, heq⟩
  · intro rollup hmem hid
    obtain ⟨other, hother, rfl, -⟩ := h.queued rollup hmem hid
    refine ⟨other, List.mem_append_left _ hother, rfl, fun hterminal => ?_⟩
    have hnot := isFinalOf_of_hasFinal hopen hmem
    rw [rollup_final hid, hterminal] at hnot
    cases hnot
  · have hsent := h.sent
    show Sent (s.history ++ [task]) s.watcher
    cases hwatcher : s.watcher with
    | watching lastUpdatedAt queue frames =>
      rw [hwatcher] at hsent
      obtain ⟨seen, newest, hframes, hsublist, hrest⟩ := hsent
      exact ⟨seen, newest, hframes, hsublist.trans (List.sublist_append_left _ _), hrest⟩
    | ended frames =>
      rw [hwatcher] at hopen
      cases hopen
    | idle | subscribed queue | refused => trivial
  · intro hwatching final hfinal hterminal
    cases List.getLast?_concat.symm.trans hfinal
    refine ⟨fun other hother => ?_, .inr ⟨i, ?_⟩⟩
    · have hbefore : other ∈ (s.history ++ [task]).dropLast := hother
      rw [List.dropLast_concat] at hbefore
      exact hlater hwatching hterminal other hbefore
    · rw [phases_setPhase, if_pos rfl, afterSave, hsaved, hown]
      split
      · exact carries_releasing.mpr rfl
      · exact carries_publishing.mpr rfl

theorem Follows.save_own (h : Follows host id s) (hphase : s.phases i = .loaded change state)
    (hown : change.sessionTaskId = id) (hopen : s.watcher.hasFinal id = false)
    (hcurrent : ∀ current, taskIn host s.store id = some current →
      current.updatedAt ≤ task.updatedAt ∧
        (s.watcher.isWatching = true → task.lifecycleState.isLive = false →
          current.updatedAt < task.updatedAt))
    (hsaved : saved.sessionTask change.sessionTaskId = some task)
    (hfound : taskIn host store id = some task) :
    Follows host id ((s.record host id store).setPhase i (afterSave change saved)) := by
  by_cases hnew : s.history.getLast? = some task
  · refine h.save_same hphase (by rw [hfound, h.stored, hnew]) fun rollup heq _ => ?_
    obtain ⟨task', htask', rfl⟩ := afterSave_publishing heq
    rw [hsaved] at htask'
    cases htask'
    exact ⟨task, List.mem_of_getLast? hnew, rfl⟩
  · -- no version is later than the stored one
    have hlast {other : SessionTask} (hother : other ∈ s.history) :
        ∃ current, taskIn host s.store id = some current ∧ other.updatedAt ≤ current.updatedAt := by
      obtain ⟨current, hlast⟩ := Option.isSome_iff_exists.mp
        (List.getLast?_isSome.mpr (List.ne_nil_of_mem hother))
      exact ⟨current, h.stored.trans hlast, h.le_last hlast hother⟩
    refine h.save_new hown hopen ?_ ?_ hsaved hfound hnew
    · intro other hother
      obtain ⟨current, hstored, hle⟩ := hlast hother
      exact hle.trans (hcurrent current hstored).1
    · intro hwatching hterminal other hother
      obtain ⟨current, hstored, hle⟩ := hlast hother
      exact hle.trans_lt ((hcurrent current hstored).2 hwatching hterminal)

theorem Follows.save (h : Follows host id s) {started now touched : ℕ}
    (hphase : s.phases i = .loaded change state)
    (horderly : s.orderly host id (.save i started now touched) = true) :
    Follows host id (s.save host id i change state started now touched) := by
  rw [orderly, hphase] at horderly
  dsimp only at horderly
  rw [TaskServer.save]
  cases hsave : s.store.save host (change.apply state started now touched) with
  | mk store result =>
    cases result with
    | error error =>
      refine (h.restore (taskIn_failed hsave)).finish false fun final _ hcarries => ?_
      have hcarried : Carries id final (s.phases i) := hcarries
      rw [hphase] at hcarried
      exact not_carries_loaded hcarried
    | ok _ =>
      rw [hsave] at horderly
      obtain ⟨task, htask, hupdated, hstatus⟩ := sessionTask_apply started now touched
        (h.loaded i change state hphase)
      by_cases hown : change.sessionTaskId = id
      · rw [if_pos hown] at horderly
        simp only [Except.isOk, Except.toBool, Bool.not_true, Bool.false_or, Bool.and_eq_true,
          Bool.or_eq_true, Bool.not_eq_true', Option.all_eq_true, beq_iff_eq,
          decide_eq_true_iff] at horderly
        obtain ⟨⟨hopen, hfound⟩, hcurrent⟩ := horderly
        refine h.save_own hphase hown hopen ?_ htask (by rw [hfound, ← hown, htask])
        intro current hstored
        obtain ⟨hle, hlater⟩ := hcurrent current hstored
        rw [hupdated, hstatus]
        refine ⟨hle, fun hwatching hterminal => ?_⟩
        obtain (hidle | hlive) | hlt := hlater
        · rw [hwatching] at hidle
          cases hidle
        · rw [hterminal] at hlive
          cases hlive
        · exact hlt
      · rw [if_neg hown] at horderly
        simp only [Except.isOk, Except.toBool, Bool.not_true, Bool.false_or, beq_iff_eq] at horderly
        exact h.save_other hphase hown horderly

/-! ### Steps and runs -/

/-- **Every orderly step keeps the invariant.** -/
theorem Follows.step (h : Follows host id s) {event : TaskEvent}
    (horderly : s.orderly host id event = true) : Follows host id (s.step host id event) := by
  cases event with
  | request i request =>
    rw [TaskServer.step]
    split
    · rename_i hphase
      refine h.setPhase (fun _ _ heq => by cases heq) (fun _ heq => by cases heq) ?_
      simp [hphase, Carries]
    · exact h
  | load i =>
    rw [TaskServer.step]
    split
    · rename_i request hphase
      exact h.load hphase
    · exact h
  | save i started now touched =>
    rw [TaskServer.step]
    split
    · rename_i change state hphase
      exact h.save hphase horderly
    · exact h
  | releaseLease i =>
    rw [TaskServer.step]
    split
    · rename_i sessionTaskId hphase
      refine h.releaseLease hphase fun hwatching hown => ?_
      rw [orderly, hphase] at horderly
      simpa [hwatching, hown] using horderly
    · exact h
  | lookUpAgain i =>
    rw [TaskServer.step]
    split
    · rename_i sessionTaskId hphase
      exact h.lookUpAgain hphase
    · exact h
  | publish i =>
    rw [TaskServer.step]
    split
    · rename_i rollup hphase
      refine h.publish hphase fun hsubscribed hfinal => ?_
      rw [orderly, hphase] at horderly
      simpa [hsubscribed, hfinal] using horderly
    · exact h
  | subscribe =>
    rw [TaskServer.step]
    split
    · exact h.stop rfl rfl trivial
    · exact h
  | readInitial =>
    rw [TaskServer.step]
    split
    · rename_i queue hwatcher
      exact h.readInitial hwatcher
    · exact h
  | receive =>
    rw [TaskServer.step]
    split
    · rename_i lastUpdatedAt snapshot queue frames hwatcher
      exact h.receive hwatcher
    · exact h

theorem Follows.run (h : Follows host id s) {events : List TaskEvent}
    (horderly : s.allOrderly host id events = true) : Follows host id (s.run host id events) := by
  induction events generalizing s with
  | nil => exact h
  | cons event events ih =>
    rw [allOrderly, Bool.and_eq_true] at horderly
    exact ih (h.step horderly.1) horderly.2

theorem lifecycleStates_rollups (tasks : List SessionTask) :
    lifecycleStates (tasks.map sessionTaskToRollup) = statuses tasks := by
  rw [lifecycleStates, List.map_map]
  rfl

theorem Follows.watchesTruly (h : Follows host id s) : s.WatchesTruly := by
  have hsent := h.sent
  refine { subsequence := ?_, endsWithFinal := ?_, comesToEnd := ?_ }
  · cases hwatcher : s.watcher with
    | watching lastUpdatedAt queue frames | ended frames =>
      rw [hwatcher] at hsent
      obtain ⟨seen, newest, rfl, hsublist, -⟩ := hsent
      show (lifecycleStates ((seen ++ [newest]).map sessionTaskToRollup)).Sublist _
      rw [lifecycleStates_rollups]
      exact hsublist.map _
    | idle | subscribed queue | refused => exact List.nil_sublist _
  · intro frames hwatcher
    rw [hwatcher] at hsent
    obtain ⟨seen, newest, rfl, -, hlast, hterminal⟩ := hsent
    refine ⟨statusDisplay newest.lifecycleState, ?_, ?_, ?_⟩
    · rw [lifecycleStateIsTerminal_display, hterminal]
      rfl
    · rw [statuses, List.getLast?_map, hlast]
      rfl
    · rw [lifecycleStates_rollups, statuses, List.getLast?_map, List.getLast?_concat]
      rfl
  · rintro ⟨hqueue, hphases⟩ status hstatus hterminal lastUpdatedAt queue frames hwatcher
    have htold := h.told
    rw [hwatcher] at htold hqueue
    rw [statuses, List.getLast?_map] at hstatus
    obtain ⟨final, hfinal, rfl⟩ := Option.map_eq_some_iff.mp hstatus
    rw [lifecycleStateIsTerminal_display, Bool.not_eq_true'] at hterminal
    obtain ⟨-, hmem | ⟨i, hcarries⟩⟩ := htold rfl final hfinal hterminal
    · have hempty : queue = [] := hqueue
      rw [hempty] at hmem
      cases hmem
    · have hphase := hphases i
      rcases hcarries with heq | heq | heq
      all_goals
        rw [heq] at hphase
        exact hphase

/-- **The watcher of an orderly run sees the final state.** -/
theorem watch_sees_final (host : StoreHost) (id : String) (store : Store) (events : List TaskEvent)
    (horderly : (start host id store).allOrderly host id events = true) :
    ((start host id store).run host id events).WatchesTruly :=
  ((follows_start store).run horderly).watchesTruly

/-! ### Two changes -/

def sampleTaskId : String := sampleId "a" 0

/-- A task of agent `a` has been delegated. -/
def delegatedStore : Store :=
  (facadeDelegateSessionTask sampleStoreHost sampleConfig (some "p") "a" "go" emptyStore).1

def releasedEvents (now now' : ℕ) : List TaskEvent :=
  [.subscribe, .readInitial, .request 0 (.updateStatus sampleTaskId "running"), .load 0,
    .save 0 now now now, .publish 0, .receive, .request 1 (.release sampleTaskId), .load 1,
    .save 1 now' now' now', .releaseLease 1, .lookUpAgain 1, .publish 1, .receive]

theorem watch_sees_final_sample :
    ((start sampleStoreHost sampleTaskId delegatedStore).run sampleStoreHost sampleTaskId
      (releasedEvents 5 6)).WatchesTruly :=
  watch_sees_final sampleStoreHost sampleTaskId delegatedStore (releasedEvents 5 6)
    (by decide +kernel)

def endedWith : Watcher → Option (List String)
  | .ended frames => some (lifecycleStates frames)
  | .idle | .subscribed _ | .refused | .watching .. => none

theorem endedWith_eq_some {states : List String} (h : endedWith watcher = some states) :
    ∃ frames, watcher = .ended frames ∧ lifecycleStates frames = states := by
  cases watcher with
  | ended frames => exact ⟨frames, rfl, Option.some.inj h⟩
  | idle | subscribed queue | refused | watching lastUpdatedAt queue frames => cases h

/-- **Two changes in one millisecond**: the stream ends at the final state and does not send it. -/
theorem same_millisecond_hides_final :
    ¬ ((start sampleStoreHost sampleTaskId delegatedStore).run sampleStoreHost sampleTaskId
      (releasedEvents 5 5)).WatchesTruly := by
  intro h
  have hended : endedWith ((start sampleStoreHost sampleTaskId delegatedStore).run sampleStoreHost
      sampleTaskId (releasedEvents 5 5)).watcher = some ["pending", "running"] := by
    decide +kernel
  have hstatuses : statuses ((start sampleStoreHost sampleTaskId delegatedStore).run
      sampleStoreHost sampleTaskId (releasedEvents 5 5)).history =
        ["pending", "running", "completed"] := by
    decide +kernel
  obtain ⟨frames, hwatcher, hframes⟩ := endedWith_eq_some hended
  obtain ⟨status, -, hlast, hsent⟩ := h.endsWithFinal frames hwatcher
  rw [hstatuses] at hlast
  rw [hframes] at hsent
  rw [List.getLast?_cons_cons, List.getLast?_cons_cons, List.getLast?_singleton] at hlast
  rw [List.getLast?_cons_cons, List.getLast?_singleton, ← hlast] at hsent
  exact absurd hsent (by decide)

end TaskServer

end Vexcoder.Server

import Vexcoder.Subtask.Concurrency
import Vexcoder.Task.Snapshot

/-!
# Writers of one state file

Calls of the facade and the documents of the terminal interfaces write the state of a parent task: each
loads the whole state, changes it and saves the whole state.  Here the calls go on step by step, in any
order: a call checks what it is given, loads, and saves.  The two that create session tasks hold the
delegate lock from the check to the end.
-/

namespace Vexcoder.Subtask

open Base Lib
open Vexcoder.Task

inductive ParentCall where
  | delegate (parentTaskId : Option String) (agentId prompt : String)
  | scheduleTeam (parentTaskId teamName prompt : String)
  | updateStatus (sessionTaskId status : String)
  | release (sessionTaskId : String)
  | pollJoin (parentTaskId : String)

inductive Checked where
  | delegate (parentTaskId : String) (agent : AgentProfile) (agentId prompt : String)
  | scheduleTeam (parentTaskId : String) (team : TeamDefinition) (prompt : String)
  | updateStatus (sessionTaskId : String) (status : SessionTaskStatus)
  | release (sessionTaskId : String)
  | pollJoin (parentTaskId : String) (live : List LiveJoinEntry)

/-- What a call has told its caller: the session tasks that were created under the parent, and those that
were given a status that ends them. -/
structure Report where
  parent : String := ""
  created : List String := []
  ended : List String := []

def ParentCall.takesLock : ParentCall → Bool
  | .delegate .. | .scheduleTeam .. => true
  | .updateStatus .. | .release _ | .pollJoin _ => false

/-- The parent whose file a call changes under the lock. -/
def Checked.lockedParent : Checked → Option String
  | .delegate parentTaskId .. | .scheduleTeam parentTaskId .. => some parentTaskId
  | .updateStatus .. | .release _ | .pollJoin .. => none

variable (host : StoreHost) (config : AgentsConfig)

/-! ### The parts of the calls -/

/-- `poll_fan_out_join`, and what `apply_join_outcome` does in front of its own load. -/
def checkJoin (store : Store) (joins : List (String × JoinIndex)) (parentTaskId : String) :
    List (String × JoinIndex) × Except String (Option Checked) :=
  match pollFanOutJoin host.toTaskHost parentTaskId
      { files := { state := (store.load host parentTaskId).toOption } } with
  | .error error => (joins, .error error)
  | .ok none => (joins, .ok none)
  | .ok (some outcome) =>
    if outcome.summaries.isEmpty then (joins, .ok none)
    else
      let merge := ((Assoc.find? parentTaskId joins).getD {}).postAll outcome.summaries
      (Assoc.insertLast parentTaskId merge joins, .ok (some (.pollJoin parentTaskId merge.liveEntries)))

/-- What comes in front of the load; `none` where the call ends without a change. -/
def ParentCall.check (store : Store) (joins : List (String × JoinIndex)) :
    ParentCall → List (String × JoinIndex) × Except String (Option Checked)
  | .delegate parentTaskId agentId prompt =>
    (joins, match parentTaskId.filter fun id => !Text.isEmpty (Text.trim id) with
      | none => .error "parent_task_id_required"
      | some parentTaskId =>
        if byteLen prompt.toList > maxDelegatePromptBytes then .error "prompt_too_long"
        else match config.agent agentId with
          | none => .error "agent_not_found"
          | some agent =>
            if agent.maxParallelTasks ≤ store.liveCount host agentId then
              .error "concurrency_limit_reached"
            else .ok (some (.delegate parentTaskId agent.toAgentProfile agentId prompt)))
  | .scheduleTeam parentTaskId teamName prompt =>
    (joins, if Text.isEmpty (Text.trim parentTaskId) then .error "parent_task_id_required"
      else if Text.isEmpty (Text.trim prompt) then .error "prompt_required"
      else if byteLen prompt.toList > maxDelegatePromptBytes then .error "prompt_too_long"
      else match config.teamDefinitions.find? fun team => team.name = teamName with
        | none => .error "team_not_found"
        | some team =>
          match checkMembers host config store teamName (membersToCreate team) with
          | .error error => .error error
          | .ok () => .ok (some (.scheduleTeam parentTaskId team prompt)))
  | .updateStatus sessionTaskId status =>
    (joins, match parseSessionTaskStatus status with
      | none => .error "invalid_status"
      | some status => .ok (some (.updateStatus sessionTaskId status)))
  | .release sessionTaskId => (joins, .ok (some (.release sessionTaskId)))
  | .pollJoin parentTaskId => checkJoin host store joins parentTaskId

/-- The state that the call goes on with; `none` where it ends without a change. -/
def Checked.read (store : Store) : Checked → Except String (Option TaskState)
  | .delegate parentTaskId .. =>
    match store.load host parentTaskId with
    | .ok state => .ok (some state)
    | .error _ => .ok (some (newTaskState parentTaskId (host.clock store.tick)))
  | .scheduleTeam parentTaskId .. =>
    match store.load host parentTaskId with
    | .ok state => .ok (some state)
    | .error error =>
      if (store.at_ host.stateDir parentTaskId).isSome then .error error
      else .ok (some (newTaskState parentTaskId (host.clock store.tick)))
  | .updateStatus sessionTaskId _ =>
    match store.findSessionTask host sessionTaskId with
    | .error error => .error error
    | .ok none => .error "session_task_not_found"
    | .ok (some (state, _)) => .ok (some state)
  | .release sessionTaskId =>
    match store.findSessionTask host sessionTaskId with
    | .error error => .error error
    | .ok found => .ok (found.map Prod.fst)
  | .pollJoin parentTaskId _ =>
    match store.load host parentTaskId with
    | .error error => .error error
    | .ok state => .ok (some state)

/-- The state that is saved, if one is, and what is reported when that succeeds. -/
def Checked.modify (tick : ℕ) (state : TaskState) : Checked → ℕ × Except String (Option TaskState × Report)
  | .delegate parentTaskId agent agentId prompt =>
    (tick + 1,
      match spawn host.toTaskHost parentTaskId agent agentId prompt state.sessionTasks false tick with
      | .error error => .error error
      | .ok task => .ok (some (state.addSessionTask task (host.clock tick)),
          { parent := parentTaskId, created := [task.id] }))
  | .scheduleTeam parentTaskId team prompt =>
    match Subtask.scheduleTeam host.toTaskHost parentTaskId team config.profiles prompt
        { files := { state := some state }, tick } with
    | (s, .error error) => (s.tick, .error error)
    | (s, .ok decomposition) => (s.tick, .ok (s.files.state,
        { parent := parentTaskId, created := decomposition.sessionTaskIds }))
  | .updateStatus sessionTaskId status =>
    (tick, match state.sessionTask sessionTaskId with
      | none => .error "session task missing after save"
      | some existing =>
        if !existing.lifecycleState.isLive then .error "transition_not_allowed"
        else .ok (some (Subtask.updateStatus state sessionTaskId status (host.clock tick)),
          { parent := state.id, ended := if status.isLive then [] else [sessionTaskId] }))
  | .release sessionTaskId =>
    (tick, if (state.sessionTask sessionTaskId).any fun task => task.lifecycleState.isLive then
        .ok (some (Subtask.updateStatus state sessionTaskId .completed (host.clock tick)),
          { parent := state.id
            ended := match host.releaseLease sessionTaskId with
              | .ok () => [sessionTaskId]
              | .error _ => [] })
      else .ok (none, {}))
  | .pollJoin _ live =>
    (tick, .ok (some { state with
      handoffSummary := some (formatLiveHandoff live)
      updatedAt := host.clock tick }, {}))

/-! ### Interleaved steps -/

inductive Phase where
  | idle
  | begun (call : ParentCall)
  | checked (call : Checked)
  | loaded (call : Checked) (state : TaskState)
  | done (result : Except String Report)

structure Writers where
  store : Store
  joins : List (String × JoinIndex) := []
  /-- The call that has the delegate lock. -/
  lock : Option ℕ := none
  phases : ℕ → Phase := fun _ => .idle
  /-- The documents of the terminal interfaces. -/
  documents : ℕ → TaskRecord
  reports : List Report := []

inductive WriterEvent where
  | call (i : ℕ) (call : ParentCall)
  | check (i : ℕ)
  | load (i : ℕ)
  | save (i : ℕ)
  /-- A turn changes the document, but for its session tasks. -/
  | turn (k : ℕ) (doc : TaskDocument)
  /-- `sync_session_tasks_from_disk` -/
  | sync (k : ℕ)
  /-- `persist_task_document` -/
  | persist (k : ℕ) (order : ℕ → IterationOrder OpenCall)

namespace Writers

def setPhase (i : ℕ) (phase : Phase) (s : Writers) : Writers :=
  { s with phases := Function.update s.phases i phase }

def finish (i : ℕ) (result : Except String Report) (s : Writers) : Writers :=
  { s with
    lock := if s.lock = some i then none else s.lock
    phases := Function.update s.phases i (.done result)
    reports := match result with
      | .ok report => s.reports ++ [report]
      | .error _ => s.reports }

def check (i : ℕ) (call : ParentCall) (s : Writers) : Writers :=
  if call.takesLock ∧ s.lock.isSome then s
  else match call.check host config s.store s.joins with
    | (joins, .error error) => { s with joins }.finish i (.error error)
    | (joins, .ok none) => { s with joins }.finish i (.ok {})
    | (joins, .ok (some checked)) =>
      { s with joins, lock := if call.takesLock then some i else s.lock }.setPhase i (.checked checked)

def load (i : ℕ) (call : Checked) (s : Writers) : Writers :=
  match call.read host s.store with
  | .error error => s.finish i (.error error)
  | .ok none => s.finish i (.ok {})
  | .ok (some state) => s.setPhase i (.loaded call state)

def save (i : ℕ) (call : Checked) (state : TaskState) (s : Writers) : Writers :=
  match call.modify host config s.store.tick state with
  | (tick, .error error) => { s with store := { s.store with tick } }.finish i (.error error)
  | (tick, .ok (none, report)) => { s with store := { s.store with tick } }.finish i (.ok report)
  | (tick, .ok (some state, report)) =>
    match ({ s.store with tick } : Store).save host state with
    | (store, .error error) => { s with store }.finish i (.error error)
    | (store, .ok ()) => { s with store }.finish i (.ok report)

def step (s : Writers) : WriterEvent → Writers
  | .call i call =>
    match s.phases i with
    | .idle => s.setPhase i (.begun call)
    | _ => s
  | .check i =>
    match s.phases i with
    | .begun call => s.check host config i call
    | _ => s
  | .load i =>
    match s.phases i with
    | .checked call => s.load host i call
    | _ => s
  | .save i =>
    match s.phases i with
    | .loaded call state => s.save host config i call state
    | _ => s
  | .turn k doc =>
    { s with documents := Function.update s.documents k { s.documents k with doc } }
  | .sync k =>
    match s.store.load host (s.documents k).id with
    | .error _ => s
    | .ok state =>
      { s with documents :=
          Function.update s.documents k { s.documents k with sessionTasks := state.sessionTasks } }
  | .persist k order =>
    { s with store := (s.store.save host (persistableSnapshot order (s.documents k))).1 }

def run (s : Writers) (events : List WriterEvent) : Writers := events.foldl (step host config) s

def start (store : Store) (joins : List (String × JoinIndex)) (documents : ℕ → TaskRecord) : Writers :=
  { store, joins, documents }

end Writers

/-! ### What is promised, and when it is kept -/

def taskOf (id : String) (tasks : List SessionTask) : Option SessionTask :=
  tasks.find? fun task => task.id = id

/-- The session tasks that were created are there, and those that were ended are. -/
def Report.KeptIn (tasks : List SessionTask) (report : Report) : Prop :=
  (∀ id ∈ report.created, (taskOf id tasks).isSome) ∧
    ∀ id ∈ report.ended, (taskOf id tasks).any fun task => !task.lifecycleState.isLive

def Writers.AllKept (s : Writers) : Prop := 
  ∀ report ∈ s.reports, report.KeptIn (s.store.tasksAt host report.parent)

/-- The file at the place of the state has the session tasks of the state. -/
def Store.Fresh (store : Store) (state : TaskState) : Prop :=
  store.tasksAt host state.id = state.sessionTasks

def Phase.isLoaded : Phase → Bool
  | .loaded .. => true
  | _ => false

/-- No call that has the lock is between its load and its save. -/
def Writers.NoneBetween (s : Writers) : Prop := ∀ i ∈ s.lock, (s.phases i).isLoaded = false

/-- A save without the lock is of the session tasks as they still are, and not between the load and the
save of a call that has the lock; under the lock, the file of the parent holds its state. -/
def Undisturbed (s : Writers) : WriterEvent → Prop
  | .load i =>
    match s.phases i with
    | .checked call => ∀ id ∈ call.lockedParent, LoadsAs host s.store id
    | _ => True
  | .save i =>
    match s.phases i with
    | .loaded call state => call.lockedParent = none → s.store.Fresh host state ∧ s.NoneBetween
    | _ => True
  | .persist k order =>
    s.store.Fresh host (persistableSnapshot order (s.documents k)) ∧ s.NoneBetween
  | .call .. | .check _ | .turn .. | .sync _ => True

def AllUndisturbed (s : Writers) : List WriterEvent → Prop
  | [] => True
  | event :: events =>
    Undisturbed host s event ∧ AllUndisturbed (s.step host config event) events

instance (tasks : List SessionTask) (report : Report) : Decidable (report.KeptIn tasks) :=
  inferInstanceAs (Decidable (_ ∧ _))

instance (s : Writers) : Decidable (s.AllKept host) := List.decidableBAll _ s.reports

instance (store : Store) (state : TaskState) : Decidable (store.Fresh host state) :=
  inferInstanceAs (Decidable (_ = _))

instance (s : Writers) : Decidable s.NoneBetween :=
  inferInstanceAs (Decidable (∀ i ∈ s.lock, _))

instance (s : Writers) (event : WriterEvent) : Decidable (Undisturbed host s event) :=
  match event with
  | .load i =>
    match h : s.phases i with
    | .checked call => decidable_of_iff (∀ id ∈ call.lockedParent, LoadsAs host s.store id)
        (by rw [Undisturbed, h])
    | .idle | .begun _ | .loaded .. | .done _ => .isTrue (by rw [Undisturbed, h]; trivial)
  | .save i =>
    match h : s.phases i with
    | .loaded call state =>
      decidable_of_iff (call.lockedParent = none → s.store.Fresh host state ∧ s.NoneBetween)
        (by rw [Undisturbed, h])
    | .idle | .begun _ | .checked _ | .done _ => .isTrue (by rw [Undisturbed, h]; trivial)
  | .persist k order => inferInstanceAs (Decidable (_ ∧ _))
  | .call .. | .check _ | .turn .. | .sync _ => .isTrue trivial

instance AllUndisturbed.decide (s : Writers) (events : List WriterEvent) :
    Decidable (AllUndisturbed host config s events) :=
  match events with
  | [] => .isTrue trivial
  | event :: events =>
    have := AllUndisturbed.decide (s.step host config event) events
    inferInstanceAs (Decidable (_ ∧ _))

/-! ### Session tasks by their ids -/

/-- What is there stays there, and what has ended stays ended. -/
def Extends (tasks tasks' : List SessionTask) : Prop :=
  ∀ id task, taskOf id tasks = some task →
    ∃ task', taskOf id tasks' = some task' ∧ (Terminal task → Terminal task')

theorem Extends.refl (tasks : List SessionTask) : Extends tasks tasks :=
  fun _ task found => ⟨task, found, id⟩

variable {tasks tasks' : List SessionTask} {id : String} {call : Checked} {store' : Store}

theorem Extends.trans {tasks'' : List SessionTask} (h : Extends tasks tasks')
    (h' : Extends tasks' tasks'') : Extends tasks tasks'' := by
  intro id task found
  obtain ⟨task', found', ended⟩ := h id task found
  obtain ⟨task'', found'', ended'⟩ := h' id task' found'
  exact ⟨task'', found'', ended' ∘ ended⟩

theorem extends_append (tasks more : List SessionTask) : Extends tasks (tasks ++ more) := by
  intro id task found
  refine ⟨task, ?_, fun ended => ended⟩
  rw [taskOf, List.find?_append]
  rw [taskOf] at found
  rw [found]
  rfl

/-- The task after a change has the id it had, and stays ended when it was. -/
def SameTask (task task' : SessionTask) : Prop :=
  task'.id = task.id ∧ (Terminal task → Terminal task')

theorem extends_of_sameTask (h : List.Forall₂ SameTask tasks tasks') : Extends tasks tasks' := by
  intro id task found
  induction h with
  | nil => cases found
  | @cons first first' tasks tasks' same _ ih =>
    rw [taskOf] at found ⊢
    by_cases own : first.id = id
    · rw [List.find?_cons_of_pos (by simpa using own)] at found
      rw [List.find?_cons_of_pos (by simpa using same.1.trans own)]
      cases found
      exact ⟨first', rfl, same.2⟩
    · rw [List.find?_cons_of_neg (by simpa using own)] at found
      rw [List.find?_cons_of_neg (by simpa using fun other => own (same.1.symm.trans other))]
      exact ih found

theorem find?_modify_findIdx {α : Type} {p : α → Bool} {f : α → α} {l : List α} {a : α}
    (found : l.find? p = some a) (still : p (f a) = true) :
    (l.modify (l.findIdx p) f).find? p = some (f a) := by
  induction l with
  | nil => cases found
  | cons b l ih =>
    rw [List.findIdx_cons]
    cases own : p b with
    | true =>
      rw [List.find?_cons_of_pos own] at found
      cases found
      exact List.find?_cons_of_pos still
    | false =>
      rw [List.find?_cons_of_neg (Bool.eq_false_iff.mp own)] at found
      rw [cond_false, List.modify_succ_cons, List.find?_cons_of_neg (Bool.eq_false_iff.mp own)]
      exact ih found

variable {host : StoreHost} {config : AgentsConfig} {store : Store} {state state' : TaskState}
  {tick tick' : ℕ} {report : Report}

/-- **A change of a live task leaves the ended ones ended, and has the new status.** -/
theorem updateStatus_spec {task : SessionTask} (status : SessionTaskStatus) (now : ℕ)
    (found : state.sessionTask id = some task) (live : task.lifecycleState.isLive = true) :
    Extends state.sessionTasks (updateStatus state id status now).sessionTasks ∧
      ∃ task', taskOf id (updateStatus state id status now).sessionTasks = some task' ∧
        task'.lifecycleState = status := by
  have at_ := found
  rw [TaskState.sessionTask, List.find?_eq_getElem?_findIdx] at at_
  constructor
  · refine extends_of_sameTask (forall₂_modify (fun _ => ⟨rfl, fun ended => ended⟩) ?_)
    intro task' first
    refine ⟨rfl, fun ended => ?_⟩
    obtain rfl := Option.some.inj (at_.symm.trans first)
    exact absurd (live.symm.trans ended) Bool.false_ne_true.symm
  · have own := List.find?_some found
    exact ⟨_, find?_modify_findIdx found own, rfl⟩

theorem Report.KeptIn.extends (h : report.KeptIn tasks) (more : Extends tasks tasks') :
    report.KeptIn tasks' := by
  refine ⟨fun id mem => ?_, fun id mem => ?_⟩
  · obtain ⟨task, found⟩ := Option.isSome_iff_exists.mp (h.1 id mem)
    obtain ⟨task', found', -⟩ := more id task found
    rw [found']
    rfl
  · obtain ⟨task, found, ended⟩ := (Option.any_eq_true _ _).mp (h.2 id mem)
    obtain ⟨task', found', still⟩ := more id task found
    refine (Option.any_eq_true _ _).mpr ⟨task', found', ?_⟩
    have ended' : Terminal task' := still ((Bool.not_eq_true' _).mp ended)
    rw [ended']
    rfl

theorem createMembers_extends {parentTaskId : String} {agents : List AgentProfile} {prompt : String}
    {sequential : Bool} {members ids : List String}
    (h : createMembers host.toTaskHost parentTaskId agents prompt sequential members tick state =
      (tick', .ok (state', ids))) :
    state'.id = state.id ∧ Extends state.sessionTasks state'.sessionTasks ∧
      ∀ id ∈ ids, (taskOf id state'.sessionTasks).isSome := by
  induction members generalizing tick state ids with
  | nil =>
    cases h
    exact ⟨rfl, .refl _, nofun⟩
  | cons memberName members ih =>
    rw [createMembers] at h
    split at h
    · cases h
    split at h
    · cases h
    rename_i task spawned
    split at h
    · cases h
    rename_i rest
    cases h
    obtain ⟨hid, more, there⟩ := ih rest
    refine ⟨hid, (extends_append state.sessionTasks [task]).trans more, ?_⟩
    intro id mem
    rcases List.mem_cons.mp mem with rfl | mem
    · have new : (taskOf task.id (state.sessionTasks ++ [task])).isSome := by
        rw [taskOf, List.find?_isSome]
        exact ⟨task, List.mem_append_right _ (List.mem_singleton_self task),
          decide_eq_true rfl⟩
      obtain ⟨task', found⟩ := Option.isSome_iff_exists.mp new
      obtain ⟨task'', found', -⟩ := more _ task' found
      rw [found']
      rfl
    · exact there id mem

/-- **What a call saves keeps what it has loaded and has what it reports.** -/
theorem modify_spec {saved : Option TaskState}
    (h : call.modify host config tick state = (tick', .ok (saved, report)))
    (hid : ∀ id ∈ call.lockedParent, state.id = id) :
    match saved with
    | none => report.created = [] ∧ report.ended = []
    | some state' => state'.id = state.id ∧ Extends state.sessionTasks state'.sessionTasks ∧
        report.KeptIn state'.sessionTasks ∧
        (report.parent = state.id ∨ report.created = [] ∧ report.ended = []) := by
  cases call with
  | delegate parentTaskId agent agentId prompt =>
    rw [Checked.modify] at h
    split at h
    · cases h
    rename_i task spawned
    cases h
    refine ⟨rfl, extends_append _ _, ⟨?_, List.forall_mem_nil _⟩, .inl (hid parentTaskId rfl).symm⟩
    intro id mem
    rw [List.mem_singleton.mp mem, taskOf, List.find?_isSome]
    exact ⟨task, List.mem_append_right _ (List.mem_singleton_self task), decide_eq_true rfl⟩
  | scheduleTeam parentTaskId team prompt =>
    rw [Checked.modify, scheduleTeam] at h
    split at h
    · cases h
    rename_i s decomposition scheduled
    cases h
    split at scheduled
    · cases scheduled
    dsimp only at scheduled
    split at scheduled
    · cases scheduled
    rename_i created
    cases scheduled
    obtain ⟨same, more, there⟩ := createMembers_extends created
    exact ⟨same, more, ⟨there, List.forall_mem_nil _⟩, .inl (hid parentTaskId rfl).symm⟩
  | updateStatus sessionTaskId status =>
    rw [Checked.modify] at h
    split at h
    · cases h
    rename_i task found
    split at h
    · cases h
    rename_i live
    cases h
    obtain ⟨more, task', found', now⟩ := updateStatus_spec status (host.clock tick) found
      (by simpa using live)
    refine ⟨rfl, more, ⟨List.forall_mem_nil _, ?_⟩, .inl rfl⟩
    intro id mem
    split at mem
    · exact (List.not_mem_nil mem).elim
    · rename_i ended
      rw [List.mem_singleton.mp mem, found', Option.any_some, now]
      simpa using ended
  | release sessionTaskId =>
    rw [Checked.modify] at h
    split at h
    · rename_i live
      cases h
      obtain ⟨task, found, live⟩ := (Option.any_eq_true _ _).mp live
      obtain ⟨more, task', found', now⟩ := updateStatus_spec .completed (host.clock tick) found live
      refine ⟨rfl, more, ⟨List.forall_mem_nil _, ?_⟩, .inl rfl⟩
      intro id mem
      split at mem
      · rw [List.mem_singleton.mp mem, found', Option.any_some, now]
        rfl
      · exact (List.not_mem_nil mem).elim
    · cases h
      exact ⟨rfl, rfl⟩
  | pollJoin parentTaskId live =>
    cases h
    exact ⟨rfl, .refl _, ⟨List.forall_mem_nil _, List.forall_mem_nil _⟩, .inr ⟨rfl, rfl⟩⟩

/-! ### A save -/

theorem at_eq_some_iff {dir : String} {stored : StoredFile} :
    store.at_ dir id = some stored ↔ stored ∈ store.files ∧ stored.place = (dir, id) := by
  constructor
  · intro found
    have here : StoredFile.isAt dir id stored = true := List.find?_some found
    exact ⟨List.mem_of_find?_eq_some found, of_decide_eq_true here⟩
  · rintro ⟨mem, place⟩
    cases place
    exact at_of_mem mem

theorem at_of_saved (state : TaskState) (h : ∀ stored, stored ∈ store'.files ↔
      stored ∈ store.others host state.id ∨ stored = Store.savedFile host state store.saves) :
    store'.at_ host.stateDir id =
      if id = state.id then some (Store.savedFile host state store.saves)
      else store.at_ host.stateDir id := by
  have saved : (Store.savedFile host state store.saves).place = (host.stateDir, state.id) := rfl
  split
  · rename_i own
    rw [own]
    exact at_eq_some_iff.mpr ⟨(h _).mpr (.inr rfl), saved⟩
  · rename_i other
    refine Option.ext fun stored => ?_
    rw [at_eq_some_iff, at_eq_some_iff, h]
    refine and_congr_left fun place => ?_
    have elsewhere : stored.place ≠ (host.stateDir, state.id) := by
      rw [place]
      exact fun same => other (Prod.mk.inj same).2
    constructor
    · rintro (mem | rfl)
      · exact (List.mem_filter.mp mem).1
      · exact absurd saved elsewhere
    · intro mem
      refine .inl (List.mem_filter.mpr ⟨mem, ?_⟩)
      rw [StoredFile.isAt, decide_eq_false elsewhere]
      rfl

/-- **A save puts the session tasks at their place and leaves those of other parents.** -/
theorem tasksAt_save (host : StoreHost) (store : Store) (state : TaskState) :
    (store.save host state).1.tasksAt host =
      match (store.save host state).2 with
      | .error _ => store.tasksAt host
      | .ok () => Function.update (store.tasksAt host) state.id state.sessionTasks := by
  rw [Store.save]
  split
  · rfl
  funext id
  rw [Store.tasksAt, at_of_saved state fun stored => by
    rw [(host.arrange_perm _ _).mem_iff, List.mem_append, List.mem_singleton]]
  dsimp only
  rw [Function.update_apply]
  split <;> rfl

/-! ### Steps -/

/-- A call that changes its parent under the lock has the lock, and what it has loaded is still there. -/
def PhaseOk (host : StoreHost) (store : Store) (hasLock : Prop) : Phase → Prop
  | .checked call => call.lockedParent.isSome → hasLock
  | .loaded call state => call.lockedParent.isSome →
      hasLock ∧ store.Fresh host state ∧ ∀ id ∈ call.lockedParent, state.id = id
  | .idle | .begun _ | .done _ => True

theorem PhaseOk.mono {hasLock hasLock' : Prop} {phase : Phase}
    (h : PhaseOk host store hasLock phase) (lock : hasLock → hasLock')
    (same : hasLock → phase.isLoaded = true → store'.tasksAt host = store.tasksAt host) :
    PhaseOk host store' hasLock' phase := by
  cases phase with
  | idle | begun call | done result => exact trivial
  | checked call => exact fun locked => lock (h locked)
  | loaded call state =>
    intro locked
    obtain ⟨has, fresh, hid⟩ := h locked
    refine ⟨lock has, ?_, hid⟩
    rw [Store.Fresh, same has rfl]
    exact fresh

structure Orderly (host : StoreHost) (s : Writers) : Prop where
  kept : s.AllKept host
  phases : ∀ i, PhaseOk host s.store (s.lock = some i) (s.phases i)

variable {s : Writers} {i : ℕ}

theorem orderly_start (joins : List (String × JoinIndex)) (documents : ℕ → TaskRecord) :
    Orderly host (.start store joins documents) :=
  ⟨nofun, fun _ => trivial⟩

theorem Orderly.setPhase {phase : Phase} (h : Orderly host s)
    (ok : PhaseOk host s.store (s.lock = some i) phase) : Orderly host (s.setPhase i phase) := by
  refine ⟨h.kept, fun j => ?_⟩
  show PhaseOk host s.store (s.lock = some j) (Function.update s.phases i phase j)
  by_cases own : j = i
  · rw [own, Function.update_self]
    exact ok
  · rw [Function.update_of_ne own]
    exact h.phases j

/-- **A call ends, with what it has changed and what it reports.** -/
theorem Orderly.finish {result : Except String Report} (h : Orderly host s)
    (kept : ∀ report ∈ s.reports, report.KeptIn (store'.tasksAt host report.parent))
    (new : ∀ report, result = .ok report → report.KeptIn (store'.tasksAt host report.parent))
    (same : ∀ j, j ≠ i → s.lock = some j → (s.phases j).isLoaded = true →
      store'.tasksAt host = s.store.tasksAt host) :
    Orderly host ({ s with store := store' }.finish i result) := by
  refine ⟨?_, fun j => ?_⟩
  · intro report mem
    cases result with
    | error error => exact kept report mem
    | ok other =>
      rcases List.mem_append.mp mem with mem | mem
      · exact kept report mem
      · rw [List.mem_singleton.mp mem]
        exact new other rfl
  · show PhaseOk host store' ((if s.lock = some i then none else s.lock) = some j)
      (Function.update s.phases i (.done result) j)
    by_cases own : j = i
    · rw [own, Function.update_self]
      exact trivial
    · rw [Function.update_of_ne own]
      refine (h.phases j).mono (fun has => ?_) (same j own)
      rw [has, if_neg fun other => own (Option.some.inj other)]

theorem keptIn_empty (tasks : List SessionTask) : ({} : Report).KeptIn tasks :=
  ⟨nofun, nofun⟩

theorem Orderly.finish_unchanged {result : Except String Report} (h : Orderly host s)
    (same : store'.tasksAt host = s.store.tasksAt host)
    (new : ∀ report, result = .ok report → report.created = [] ∧ report.ended = []) :
    Orderly host ({ s with store := store' }.finish i result) := by
  refine h.finish (fun report mem => ?_) (fun report ok => ?_) fun _ _ _ _ => same
  · rw [same]
    exact h.kept report mem
  · obtain ⟨created, ended⟩ := new report ok
    rw [Report.KeptIn, created, ended]
    exact keptIn_empty _

theorem Orderly.joins (h : Orderly host s) (joins : List (String × JoinIndex)) :
    Orderly host { s with joins } := ⟨h.kept, h.phases⟩

theorem checkJoin_lockedParent {joins joins' : List (String × JoinIndex)} {parentTaskId : String}
    {checked : Checked} (h : checkJoin host store joins parentTaskId = (joins', .ok (some checked))) :
    checked.lockedParent = none := by
  rw [checkJoin] at h
  split at h
  · cases h
  · cases h
  · split at h
    · cases h
    · cases h
      rfl

theorem check_lockedParent {call : ParentCall} {joins joins' : List (String × JoinIndex)}
    {checked : Checked} (h : call.check host config store joins = (joins', .ok (some checked)))
    (locked : checked.lockedParent.isSome) : call.takesLock = true := by
  cases call with
  | delegate parentTaskId agentId prompt | scheduleTeam parentTaskId teamName prompt => rfl
  | updateStatus sessionTaskId status =>
    rw [ParentCall.check] at h
    split at h
    · cases h
    · cases h
      cases locked
  | release sessionTaskId =>
    cases h
    cases locked
  | pollJoin parentTaskId =>
    rw [checkJoin_lockedParent h] at locked
    cases locked

theorem Orderly.check {call : ParentCall} (h : Orderly host s) :
    Orderly host (s.check host config i call) := by
  rw [Writers.check]
  split
  · exact h
  rename_i free
  split
  · exact (h.joins _).finish_unchanged rfl fun _ ok => nomatch ok
  · refine (h.joins _).finish_unchanged rfl fun report ok => ?_
    cases ok
    exact ⟨rfl, rfl⟩
  · rename_i joins checked passed
    cases takes : call.takesLock with
    | false =>
      refine (h.joins joins).setPhase fun locked => ?_
      rw [check_lockedParent passed locked] at takes
      cases takes
    | true =>
      have none_ : s.lock = none := by
        rw [takes] at free
        simpa using free
      have orderly : Orderly host { s with joins, lock := some i } := by
        refine ⟨h.kept, fun j => ?_⟩
        refine (h.phases j).mono (fun has => ?_) fun _ _ => rfl
        rw [none_] at has
        cases has
      exact orderly.setPhase fun _ => rfl

theorem load_fresh (loads : LoadsAs host store id) (h : store.load host id = .ok state) :
    store.Fresh host state ∧ state.id = id := by
  have hid := loads state (by rw [h]; rfl)
  refine ⟨?_, hid⟩
  rw [Store.Fresh, hid]
  exact load_tasksAt h

/-- **Under the lock a call goes on with the state that is there.** -/
theorem read_spec (h : call.read host store = .ok (some state))
    (loads : ∀ id ∈ call.lockedParent, LoadsAs host store id) (locked : call.lockedParent.isSome) :
    store.Fresh host state ∧ ∀ id ∈ call.lockedParent, state.id = id := by
  obtain ⟨parentTaskId, hparent⟩ := Option.isSome_iff_exists.mp locked
  have loaded : store.load host parentTaskId = .ok state ∨
      (∃ error, store.load host parentTaskId = .error error) ∧
        state = newTaskState parentTaskId (host.clock store.tick) := by
    cases call with
    | delegate id agent agentId prompt =>
      obtain rfl := Option.some.inj hparent
      rw [Checked.read] at h
      split at h
      · rename_i ok
        cases h
        exact .inl ok
      · rename_i error failed
        cases h
        exact .inr ⟨⟨error, failed⟩, rfl⟩
    | scheduleTeam id team prompt =>
      obtain rfl := Option.some.inj hparent
      rw [Checked.read] at h
      split at h
      · rename_i ok
        cases h
        exact .inl ok
      · rename_i error failed
        split at h
        · cases h
        · cases h
          exact .inr ⟨⟨error, failed⟩, rfl⟩
    | updateStatus sessionTaskId status | release sessionTaskId | pollJoin id live => cases hparent
  rw [hparent]
  rcases loaded with ok | ⟨⟨error, failed⟩, rfl⟩
  · obtain ⟨fresh, hid⟩ := load_fresh (loads parentTaskId hparent) ok
    exact ⟨fresh, fun id mem => hid.trans (Option.some.inj mem)⟩
  · exact ⟨load_error_tasksAt failed, fun id mem => Option.some.inj mem⟩

theorem Orderly.load (h : Orderly host s) (at_ : s.phases i = .checked call)
    (loads : ∀ id ∈ call.lockedParent, LoadsAs host s.store id) :
    Orderly host (s.load host i call) := by
  rw [Writers.load]
  split
  · exact h.finish_unchanged rfl fun _ ok => nomatch ok
  · refine h.finish_unchanged rfl fun report ok => ?_
    cases ok
    exact ⟨rfl, rfl⟩
  · rename_i state read
    refine h.setPhase fun locked => ?_
    have ok := h.phases i
    rw [at_] at ok
    exact ⟨ok locked, read_spec read loads locked⟩

theorem kept_save {store : Store} (h : Orderly host s) (before : store.tasksAt host = s.store.tasksAt host)
    (more : Extends (s.store.tasksAt host state.id) state.sessionTasks) :
    ∀ report ∈ s.reports, report.KeptIn ((store.save host state).1.tasksAt host report.parent) := by
  intro report mem
  have kept := h.kept report mem
  rw [tasksAt_save]
  split
  · rw [before]
    exact kept
  rw [before, Function.update_apply]
  split
  · rename_i own
    rw [own] at kept
    exact kept.extends more
  · exact kept

theorem Orderly.save (h : Orderly host s) (at_ : s.phases i = .loaded call state)
    (undisturbed : call.lockedParent = none → s.store.Fresh host state ∧ s.NoneBetween) :
    Orderly host (s.save host config i call state) := by
  have ok := h.phases i
  rw [at_] at ok
  -- Under the lock this is what was loaded; otherwise it is the condition.
  have loaded : s.store.Fresh host state ∧ (∀ id ∈ call.lockedParent, state.id = id) ∧
      ∀ j, j ≠ i → s.lock = some j → (s.phases j).isLoaded = false := by
    cases locked : call.lockedParent with
    | none =>
      obtain ⟨fresh, between⟩ := undisturbed locked
      exact ⟨fresh, fun id mem => (Option.not_mem_none id mem).elim, fun j _ has => between j has⟩
    | some id =>
      obtain ⟨has, fresh, hid⟩ := ok (by rw [locked]; rfl)
      refine ⟨fresh, fun id' mem => hid id' (locked.trans mem), fun j other has' => ?_⟩
      exact absurd (Option.some.inj (has'.symm.trans has)) other
  obtain ⟨fresh, hid, others⟩ := loaded
  rw [Writers.save]
  split
  · exact h.finish_unchanged rfl fun _ ok => nomatch ok
  · rename_i tick report modified
    refine h.finish_unchanged rfl fun report' ok => ?_
    cases ok
    exact modify_spec modified hid
  · rename_i tick state' report modified
    obtain ⟨same, more, kept, about⟩ := modify_spec modified hid
    have more' : Extends (s.store.tasksAt host state'.id) state'.sessionTasks := by
      rw [same, fresh]
      exact more
    have reports := @kept_save host state' s { s.store with tick } h rfl more'
    have saved := tasksAt_save host { s.store with tick } state'
    split
    · rename_i store' error failed
      rw [failed] at saved
      exact h.finish_unchanged saved fun _ ok => nomatch ok
    · rename_i store' done
      rw [done] at saved reports
      dsimp only at saved
      refine h.finish reports (fun report' ok => ?_) fun j other has isLoaded => ?_
      · cases ok
        rcases about with parent | ⟨created, ended⟩
        · rw [saved, parent, ← same, Function.update_self]
          exact kept
        · rw [Report.KeptIn, created, ended]
          exact keptIn_empty _
      · rw [others j other has] at isLoaded
        cases isLoaded

theorem Orderly.persist (h : Orderly host s) (fresh : s.store.Fresh host state)
    (between : s.NoneBetween) : Orderly host { s with store := (s.store.save host state).1 } := by
  refine ⟨@kept_save host state s s.store h rfl ?_, fun i => (h.phases i).mono id fun has isLoaded => ?_⟩
  · rw [fresh]
    exact .refl _
  · rw [between i has] at isLoaded
    cases isLoaded

theorem Orderly.step {event : WriterEvent} (h : Orderly host s)
    (undisturbed : Undisturbed host s event) : Orderly host (s.step host config event) := by
  cases event with
  | call i call =>
    rw [Writers.step]
    split
    · exact h.setPhase trivial
    · exact h
  | check i =>
    rw [Writers.step]
    split
    · exact h.check
    · exact h
  | load i =>
    rw [Writers.step]
    split
    · rename_i call at_
      rw [Undisturbed, at_] at undisturbed
      exact h.load at_ undisturbed
    · exact h
  | save i =>
    rw [Writers.step]
    split
    · rename_i call state at_
      rw [Undisturbed, at_] at undisturbed
      exact h.save at_ undisturbed
    · exact h
  | turn k doc => exact ⟨h.kept, h.phases⟩
  | sync k =>
    rw [Writers.step]
    split
    · exact h
    · exact ⟨h.kept, h.phases⟩
  | persist k order => exact h.persist undisturbed.1 undisturbed.2

theorem Orderly.run {events : List WriterEvent} (h : Orderly host s)
    (undisturbed : AllUndisturbed host config s events) :
    Orderly host (s.run host config events) := by
  induction events generalizing s with
  | nil => exact h
  | cons event events ih => exact ih (h.step undisturbed.1) undisturbed.2

theorem AllUndisturbed.take {events : List WriterEvent} (h : AllUndisturbed host config s events)
    (n : ℕ) : AllUndisturbed host config s (events.take n) := by
  induction events generalizing s n with
  | nil =>
    rw [List.take_nil]
    exact h
  | cons event events ih =>
    cases n with
    | zero => exact trivial
    | succ n => exact ⟨h.1, ih h.2 n⟩

def sampleWriters : Writers := .start emptyStore [] fun _ => { id := "p", doc := { info := {} } }

def delegateEvents (i : ℕ) (agentId : String) : List WriterEvent :=
  [.call i (.delegate (some "p") agentId "go"), .check i, .load i, .save i]

def interleavedEvents : List WriterEvent :=
  delegateEvents 0 "a" ++ [.sync 0, .persist 0 fun _ => .given OpenCall,
    .call 1 (.updateStatus (sampleId "a" 0) "completed"), .check 1, .load 1,
    .call 2 (.delegate (some "p") "b" "go"), .check 2, .save 1, .load 2, .save 2]

end Vexcoder.Subtask

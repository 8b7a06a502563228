import Mathlib.Data.List.MinMax
import Vexcoder.Subtask.Orchestrator

/-!
# Joins along a run

A run schedules teams, advances them, completes session tasks, polls the join and applies outcomes that
were polled before, in any order and as often as it likes.  `Joined` is what holds along the run: each
task only replaces earlier ones, each summary carries these ids and the index is built from the
summaries that were posted.
-/

namespace Vexcoder.Subtask

open Vexcoder.Task
open Lib.Assoc JoinIndex

inductive Event where
  | scheduleTeam (team : TeamDefinition) (agents : List AgentProfile) (prompt : String)
  | advanceSequential (team : TeamDefinition) (agents : List AgentProfile) (prompt : String)
  | updateStatus (id : String) (status : SessionTaskStatus)
  | handoff (id summary : String)
  | poll
  /-- One of the outcomes polled so far is applied. -/
  | apply (outcome : ℕ)

structure JoinState where
  system : System := {}
  outcomes : List JoinOutcome := []
  /-- The summaries that were posted, in order. -/
  posted : List JoinSummary := []

variable (host : TaskHost) (parentTaskId : String)

def joinStep (s : JoinState) : Event → JoinState
  | .scheduleTeam team agents prompt =>
    { s with system := (scheduleTeam host parentTaskId team agents prompt s.system).1 }
  | .advanceSequential team agents prompt =>
    { s with system := (advanceSequential host parentTaskId team agents prompt s.system).1 }
  | .updateStatus id status => { s with system := updateSessionTaskStatus host id status s.system }
  | .handoff id summary => { s with system := setHandoffSummary host id summary s.system }
  | .poll =>
    match pollFanOutJoin host parentTaskId s.system with
    | .ok (some outcome) => { s with outcomes := s.outcomes ++ [outcome] }
    | _ => s
  | .apply k =>
    match s.outcomes[k]? with
    | none => s
    | some outcome =>
      { s with
        system := (applyJoinOutcome host parentTaskId outcome s.system).1
        posted := s.posted ++ outcome.summaries }

def joinRun (s : JoinState) (events : List Event) : JoinState :=
  events.foldl (joinStep host parentTaskId) s

/-- A parent task without session tasks and summaries. -/
structure NothingJoined (files : ParentFiles) : Prop where
  index : files.joinIndex = none
  tasks : ∀ state, files.state = some state → state.sessionTasks = []

/-- The one id was given out before the other. -/
def Earlier (ids : List String) (id id' : String) : Prop :=
  ∃ before after, ids = before ++ id' :: after ∧ id ∈ before

/-- The random numbers drawn are what `Uuid` makes: written in one length, and no two the same. -/
structure FreshUuids (tick : ℕ) : Prop where
  length : ∀ i < tick, (host.uuid i).toList.length = 36
  inj : ∀ i < tick, ∀ j < tick, host.uuid i = host.uuid j → i = j

/-! ### Earlier ids -/

variable {ids : List String} {id prompt : String} {tasks : List SessionTask} {sequential : Bool}
  {task : SessionTask} {s : JoinState}

theorem Earlier.append {id' : String} (h : Earlier ids id id') (more : List String) :
    Earlier (ids ++ more) id id' := by
  obtain ⟨before, after, rfl, hmem⟩ := h
  exact ⟨before, after ++ more, by simp, hmem⟩

theorem Earlier.last (h : id ∈ ids) (id' : String) : Earlier (ids ++ [id']) id id' := ⟨ids, [], rfl, h⟩

theorem Earlier.idxOf_lt {id' : String} (h : Earlier ids id id') (hnodup : ids.Nodup) :
    ids.idxOf id < ids.idxOf id' := by
  obtain ⟨before, after, rfl, hmem⟩ := h
  have hnew : id' ∉ before := fun hmem' =>
    (List.nodup_append.mp hnodup).2.2 id' hmem' id' List.mem_cons_self rfl
  rw [List.idxOf_append_of_mem hmem, List.idxOf_append_of_notMem hnew, List.idxOf_cons_self]
  exact List.idxOf_lt_length_of_mem hmem

/-! ### Stamps of session tasks -/

/-- The id of a task and the ids that it replaces. -/
def stamp (task : SessionTask) : String × List String := (task.id, task.supersedes)

/-- The ids were drawn one by one, and each task replaces earlier ones. -/
structure Stamped (tick : ℕ) (stamps : List (String × List String)) : Prop where
  drawn : ∀ p ∈ stamps, ∃ i < tick, ∃ agentId,
    p.1 = parentTaskId ++ "-" ++ agentId ++ "-" ++ host.uuid i
  nodup : (stamps.map Prod.fst).Nodup
  earlier : ∀ p ∈ stamps, ∀ id ∈ p.2, Earlier (stamps.map Prod.fst) id p.1

variable {host parentTaskId} {tick tick' : ℕ} {stamps : List (String × List String)}

theorem Stamped.mono (h : Stamped host parentTaskId tick stamps) (hle : tick ≤ tick') :
    Stamped host parentTaskId tick' stamps where
  drawn p hp := by
    obtain ⟨i, hi, hid⟩ := h.drawn p hp
    exact ⟨i, lt_of_lt_of_le hi hle, hid⟩
  nodup := h.nodup
  earlier := h.earlier

theorem FreshUuids.mono (h : FreshUuids host tick') (hle : tick ≤ tick') : FreshUuids host tick :=
  ⟨fun i hi => h.length i (lt_of_lt_of_le hi hle), fun i hi j hj =>
    h.inj i (lt_of_lt_of_le hi hle) j (lt_of_lt_of_le hj hle)⟩

/-- **A task that is created last** replaces earlier ones only. -/
theorem Stamped.concat (h : Stamped host parentTaskId tick stamps) (hfresh : FreshUuids host (tick + 1))
    {agentId : String} {supersedes : List String} (hsupersedes : supersedes ⊆ stamps.map Prod.fst) :
    Stamped host parentTaskId (tick + 1)
      (stamps ++ [(parentTaskId ++ "-" ++ agentId ++ "-" ++ host.uuid tick, supersedes)]) where
  drawn p hp := by
    rcases List.mem_append.mp hp with hp | hp
    · obtain ⟨i, hi, hid⟩ := h.drawn p hp
      exact ⟨i, by omega, hid⟩
    · rw [List.mem_singleton.mp hp]
      exact ⟨tick, by omega, agentId, rfl⟩
  nodup := by
    rw [List.map_append, List.nodup_append]
    refine ⟨h.nodup, List.pairwise_singleton _ _, fun id hid id' hid' heq => ?_⟩
    obtain ⟨p, hp, rfl⟩ := List.mem_map.mp hid
    obtain ⟨i, hi, agentId', hp⟩ := h.drawn p hp
    have heq : p.1 = parentTaskId ++ "-" ++ agentId ++ "-" ++ host.uuid tick :=
      heq.trans (List.mem_singleton.mp hid')
    have hlist := congrArg String.toList (hp.symm.trans heq)
    rw [String.toList_append, String.toList_append (t := host.uuid tick)] at hlist
    have huuid := (List.append_inj' hlist
      ((hfresh.length i (by omega)).trans (hfresh.length tick (by omega)).symm)).2
    have hi' := hfresh.inj i (by omega) tick (by omega) (String.toList_inj.mp huuid)
    omega
  earlier p hp id hid := by
    rw [List.map_append]
    rcases List.mem_append.mp hp with hp | hp
    · exact (h.earlier p hp id hid).append _
    · rw [List.mem_singleton.mp hp] at hid ⊢
      exact Earlier.last (hsupersedes hid) _

/-! ### Operations on session tasks -/

theorem ids_stamps (tasks : List SessionTask) :
    (tasks.map stamp).map Prod.fst = tasks.map SessionTask.id := by
  rw [List.map_map]
  rfl

theorem Stamped.spawn (h : Stamped host parentTaskId tick (tasks.map stamp))
    (hfresh : FreshUuids host (tick + 1)) {agent : AgentProfile} {memberName : String}
    (hspawn : Subtask.spawn host parentTaskId agent memberName prompt tasks sequential tick =
      .ok task) : Stamped host parentTaskId (tick + 1) ((tasks ++ [task]).map stamp) := by
  obtain ⟨hid, -, -, hsupersedes⟩ := spawn_spec hspawn
  rw [← ids_stamps] at hsupersedes
  rw [List.map_append]
  have hstamp : [task].map stamp =
      [(parentTaskId ++ "-" ++ memberName ++ "-" ++ host.uuid tick, task.supersedes)] := by
    rw [← hid]
    rfl
  rw [hstamp]
  exact h.concat hfresh hsupersedes

/-- The tasks that one call adds, at the ticks it takes. -/
structure Grows (host : TaskHost) (parentTaskId : String) (tick : ℕ) (tasks : List SessionTask)
    (tick' : ℕ) (tasks' : List SessionTask) : Prop where
  le : tick ≤ tick'
  suffix : ∃ new, tasks' = tasks ++ new
  stamped : FreshUuids host tick' → Stamped host parentTaskId tick (tasks.map stamp) →
    Stamped host parentTaskId tick' (tasks'.map stamp)

theorem createMembers_tick {agents : List AgentProfile} {members : List String} {state : TaskState}
    {result : Except String (TaskState × List String)}
    (h : createMembers host parentTaskId agents prompt sequential members tick state =
      (tick', result)) : tick ≤ tick' := by
  induction members generalizing tick state result with
  | nil =>
    cases h
    exact le_refl _
  | cons memberName members ih =>
    rw [createMembers] at h
    cases hagent : findAgent agents memberName with
    | error e =>
      rw [hagent] at h
      cases h
      exact le_refl _
    | ok agent =>
      rw [hagent] at h
      dsimp only at h
      cases hspawn : spawn host parentTaskId agent memberName prompt state.sessionTasks sequential tick with
      | error e =>
        rw [hspawn] at h
        cases h
        exact Nat.le_succ tick
      | ok task =>
        rw [hspawn] at h
        dsimp only at h
        split at h <;> rename_i heq <;> cases h <;> exact le_trans (Nat.le_succ tick) (ih heq)

theorem createMembers_grows {agents : List AgentProfile} {members : List String} {state state' : TaskState}
    (h : createMembers host parentTaskId agents prompt sequential members tick state =
      (tick', .ok (state', ids))) :
    Grows host parentTaskId tick state.sessionTasks tick' state'.sessionTasks := by
  induction members generalizing tick state ids with
  | nil =>
    cases h
    exact ⟨le_refl _, ⟨[], (List.append_nil _).symm⟩, fun _ h => h⟩
  | cons memberName members ih =>
    rw [createMembers] at h
    cases hagent : findAgent agents memberName with
    | error e =>
      rw [hagent] at h
      cases h
    | ok agent =>
      rw [hagent] at h
      dsimp only at h
      cases hspawn : spawn host parentTaskId agent memberName prompt state.sessionTasks sequential tick with
      | error e =>
        rw [hspawn] at h
        cases h
      | ok task =>
        rw [hspawn] at h
        dsimp only at h
        split at h
        · cases h
        rename_i heq
        cases h
        have hrest := ih heq
        obtain ⟨new, hnew⟩ := hrest.suffix
        refine ⟨le_trans (Nat.le_succ tick) hrest.le, ⟨task :: new, ?_⟩, fun hfresh hstamped => ?_⟩
        · rw [hnew]
          show (state.sessionTasks ++ [task]) ++ new = _
          rw [List.append_assoc]
          rfl
        · exact hrest.stamped hfresh (hstamped.spawn (hfresh.mono hrest.le) hspawn)

/-- What the operations on session tasks do to a system: new tasks come last, and what is there keeps
its stamps. -/
structure Moves (host : TaskHost) (parentTaskId : String) (s s' : System) : Prop where
  le : s.tick ≤ s'.tick
  ids : ∃ new, s'.ids = s.ids ++ new
  stamped : FreshUuids host s'.tick → Stamped host parentTaskId s.tick (s.tasks.map stamp) →
    Stamped host parentTaskId s'.tick (s'.tasks.map stamp)
  index : s'.files.joinIndex = s.files.joinIndex
  state : s.files.state.isSome = true → s'.files.state.isSome = true

theorem Moves.of_stamps {s s' : System} (htick : s.tick ≤ s'.tick)
    (hstamps : s'.tasks.map stamp = s.tasks.map stamp) (hindex : s'.files.joinIndex = s.files.joinIndex)
    (hstate : s.files.state.isSome = true → s'.files.state.isSome = true) :
    Moves host parentTaskId s s' where
  le := htick
  ids := ⟨[], by rw [System.ids, System.ids, ← ids_stamps, ← ids_stamps, hstamps, List.append_nil]⟩
  stamped _ h := by
    rw [hstamps]
    exact h.mono htick
  index := hindex
  state := hstate

theorem Moves.refl (s : System) : Moves host parentTaskId s s :=
  Moves.of_stamps (le_refl _) rfl rfl id

theorem Moves.of_grows {s s' : System} (hgrows : Grows host parentTaskId s.tick s.tasks s'.tick s'.tasks)
    (hindex : s'.files.joinIndex = s.files.joinIndex) (hstate : s'.files.state.isSome = true) :
    Moves host parentTaskId s s' where
  le := hgrows.le
  ids := by
    obtain ⟨new, hnew⟩ := hgrows.suffix
    exact ⟨new.map SessionTask.id, by rw [System.ids, hnew, List.map_append]; rfl⟩
  stamped := hgrows.stamped
  index := hindex
  state _ := hstate

theorem scheduleTeam_moves (team : TeamDefinition) (agents : List AgentProfile) (prompt : String)
    (s : System) :
    Moves host parentTaskId s (scheduleTeam host parentTaskId team agents prompt s).1 := by
  rw [scheduleTeam]
  split
  · exact Moves.refl s
  have htasks : (s.files.state.getD (newTaskState parentTaskId (host.clock s.tick))).sessionTasks =
      s.tasks := by
    rw [System.tasks]
    cases s.files.state with
    | none | some state => rfl
  dsimp only
  split
  · rename_i heq
    exact Moves.of_stamps (createMembers_tick heq) rfl rfl id
  · rename_i heq
    have hgrows := createMembers_grows heq
    rw [htasks] at hgrows
    exact Moves.of_grows hgrows rfl rfl

theorem advanceSequential_moves (team : TeamDefinition) (agents : List AgentProfile)
    (prompt : String) (s : System) :
    Moves host parentTaskId s (advanceSequential host parentTaskId team agents prompt s).1 := by
  rw [advanceSequential, loadParent]
  cases hstate : s.files.state with
  | none => exact Moves.refl s
  | some state =>
    dsimp only
    cases nextMember state.sessionTasks team.members with
    | none => exact Moves.refl s
    | some memberName =>
      dsimp only
      cases findAgent agents memberName with
      | error e => exact Moves.refl s
      | ok agent =>
        dsimp only
        cases hspawn : spawn host parentTaskId agent memberName prompt state.sessionTasks true s.tick with
        | error e => exact Moves.of_stamps (Nat.le_succ _) rfl rfl id
        | ok task =>
          have htasks : s.tasks = state.sessionTasks := by rw [System.tasks, hstate]
          refine Moves.of_grows ⟨Nat.le_succ _, ⟨[task], ?_⟩, fun hfresh hstamped => ?_⟩ rfl rfl
          · rw [htasks]
            rfl
          · rw [htasks] at hstamped
            exact hstamped.spawn hfresh hspawn

theorem setSessionTask_stamps (state : TaskState) (id : String) {change : SessionTask → SessionTask}
    (hchange : ∀ task, stamp (change task) = stamp task) (now : ℕ) :
    (state.setSessionTask id change now).sessionTasks.map stamp = state.sessionTasks.map stamp := by
  refine List.ext_getElem? fun i => ?_
  rw [TaskState.setSessionTask, List.getElem?_map, List.getElem?_map, List.getElem?_modify]
  cases state.sessionTasks[i]? with
  | none => rfl
  | some task =>
    show some (stamp (if _ then change task else task)) = some (stamp task)
    split
    · rw [hchange]
    · rfl

theorem updateSessionTaskStatus_moves (id : String) (status : SessionTaskStatus) (s : System) :
    Moves host parentTaskId s (updateSessionTaskStatus host id status s) := by
  rw [updateSessionTaskStatus]
  cases hstate : s.files.state with
  | none => exact Moves.refl s
  | some state =>
    dsimp only
    split
    · exact Moves.refl s
    split
    · refine Moves.of_stamps (le_refl _) ?_ rfl fun _ => rfl
      rw [System.tasks, System.tasks, hstate]
      refine setSessionTask_stamps state id ?_ _
      exact fun task => rfl
    · exact Moves.refl s

theorem setHandoffSummary_moves (id summary : String) (s : System) :
    Moves host parentTaskId s (setHandoffSummary host id summary s) := by
  rw [setHandoffSummary]
  cases hstate : s.files.state with
  | none => exact Moves.refl s
  | some state =>
    refine Moves.of_stamps (le_refl _) ?_ rfl fun _ => rfl
    rw [System.tasks, System.tasks, hstate]
    refine setSessionTask_stamps state id ?_ _
    exact fun task => rfl

/-! ### Summaries -/

/-- Summaries of different tasks, each of which replaces earlier ones. -/
structure Replacing (ids : List String) (summaries : List JoinSummary) : Prop where
  earlier : ∀ summary ∈ summaries, ∀ id ∈ summary.supersedes, Earlier ids id summary.messageId

theorem Replacing.append {summaries : List JoinSummary} (h : Replacing ids summaries)
    (more : List String) : Replacing (ids ++ more) summaries :=
  ⟨fun summary hsummary id hid => (h.earlier summary hsummary id hid).append more⟩

theorem mem_supersedePrior {prior : SessionTask} (h : id ∈ supersedePrior task ids prior) :
    id ∈ ids ∨ id = prior.id := by
  rw [supersedePrior] at h
  split at h
  · exact .inl h
  split at h
  · exact .inl h
  split at h
  · rcases List.mem_append.mp h with h | h
    · exact .inl h
    · exact .inr (List.mem_singleton.mp h)
  · exact .inl h

theorem mem_foldl_supersedePrior {priors : List SessionTask}
    (h : id ∈ priors.foldl (supersedePrior task) ids) :
    id ∈ ids ∨ id ∈ priors.map SessionTask.id := by
  induction priors generalizing ids with
  | nil => exact .inl h
  | cons prior priors ih =>
    rw [List.map_cons, List.mem_cons]
    rcases ih h with h | h
    · rcases mem_supersedePrior h with h | h
      · exact .inl h
      · exact .inr (.inl h)
    · exact .inr (.inr h)

theorem mem_productionSupersedes {all : List SessionTask} (h : id ∈ productionSupersedes task all) :
    id ∈ task.supersedes ∨ Earlier (all.map SessionTask.id) id task.id := by
  rw [productionSupersedes] at h
  cases hindex : all.findIdx? fun candidate => candidate.id = task.id with
  | none =>
    rw [hindex] at h
    exact .inl h
  | some index =>
    rw [hindex] at h
    obtain ⟨hlt, hfound, -⟩ := List.findIdx?_eq_some_iff_getElem.mp hindex
    have hid : all[index].id = task.id := of_decide_eq_true hfound
    have hsplit : all.map SessionTask.id =
        (all.take index).map SessionTask.id ++ task.id :: (all.drop (index + 1)).map SessionTask.id := by
      rw [← hid, ← List.map_cons, ← List.map_append, List.getElem_cons_drop, List.take_append_drop]
    rcases mem_foldl_supersedePrior h with h | h
    · exact .inl h
    · exact .inr ⟨_, _, hsplit, h⟩

theorem joinSummary_replacing (h : Stamped host parentTaskId tick (tasks.map stamp))
    (htask : task ∈ tasks) (summary : String) :
    Replacing (tasks.map SessionTask.id) [joinSummary tasks task summary] := by
  refine ⟨fun post hpost id hid => ?_⟩
  rw [List.mem_singleton.mp hpost] at hid ⊢
  rcases mem_productionSupersedes hid with hid | hearlier
  · have hstamp := h.earlier (stamp task) (List.mem_map_of_mem htask) id hid
    rw [ids_stamps] at hstamp
    exact hstamp
  · exact hearlier

/-- **The summaries of a poll** are those of different tasks, in their order. -/
theorem collectTasks_spec {all : List SessionTask} {outcome outcome' : JoinOutcome}
    (h : collectTasks all tasks outcome = some outcome') :
    ∃ new, outcome'.summaries = outcome.summaries ++ new ∧
      (new.map JoinSummary.messageId).Sublist (tasks.map SessionTask.id) ∧
      ∀ post ∈ new, ∃ task ∈ tasks, ∃ summary, post = joinSummary all task summary := by
  induction tasks generalizing outcome with
  | nil =>
    cases h
    exact ⟨[], (List.append_nil _).symm, List.Sublist.refl _, nofun⟩
  | cons task tasks ih =>
    have hskip : ∀ outcome₁ : JoinOutcome, outcome₁.summaries = outcome.summaries →
        collectTasks all tasks outcome₁ = some outcome' →
        ∃ new, outcome'.summaries = outcome.summaries ++ new ∧
          (new.map JoinSummary.messageId).Sublist ((task :: tasks).map SessionTask.id) ∧
          ∀ post ∈ new, ∃ task' ∈ task :: tasks, ∃ summary, post = joinSummary all task' summary := by
      intro outcome₁ hsame h
      obtain ⟨new, hnew, hsublist, hfrom⟩ := ih h
      refine ⟨new, hsame ▸ hnew, hsublist.cons _, fun post hpost => ?_⟩
      obtain ⟨task', htask, summary, rfl⟩ := hfrom post hpost
      exact ⟨task', List.mem_cons_of_mem _ htask, summary, rfl⟩
    rw [collectTasks] at h
    cases hstatus : task.lifecycleState with
    | completed =>
      rw [hstatus] at h
      cases hsummary : task.handoffSummary with
      | none =>
        rw [hsummary] at h
        refine hskip _ ?_ h
        exact List.append_nil _
      | some summary =>
        rw [hsummary] at h
        obtain ⟨new, hnew, hsublist, hfrom⟩ := ih h
        refine ⟨joinSummary all task summary :: new, ?_, hsublist.cons_cons _, fun post hpost => ?_⟩
        · rw [hnew]
          exact List.append_assoc _ _ _
        · rcases List.mem_cons.mp hpost with rfl | hpost
          · exact ⟨task, List.mem_cons_self, summary, rfl⟩
          · obtain ⟨task', htask, summary', rfl⟩ := hfrom post hpost
            exact ⟨task', List.mem_cons_of_mem _ htask, summary', rfl⟩
    | failed =>
      rw [hstatus] at h
      refine hskip _ ?_ h
      rfl
    | cancelled =>
      rw [hstatus] at h
      refine hskip _ ?_ h
      rfl
    | pending | running | blocked =>
      rw [hstatus] at h
      cases h

/-! ### Runs -/

def System.index (s : System) : JoinIndex := s.files.joinIndex.getD {}

structure Joined (host : TaskHost) (parentTaskId : String) (s : JoinState) : Prop where
  stamped : Stamped host parentTaskId s.system.tick (s.system.tasks.map stamp)
  outcomes : ∀ outcome ∈ s.outcomes, Replacing s.system.ids outcome.summaries ∧
    (outcome.summaries.map JoinSummary.messageId).Nodup
  posted : Replacing s.system.ids s.posted
  built : JoinIndex.BuiltFrom s.system.index s.posted
  state : s.outcomes ≠ [] → s.system.files.state.isSome = true

theorem Joined.moves (h : Joined host parentTaskId s) {system : System}
    (hfresh : FreshUuids host system.tick) (hmoves : Moves host parentTaskId s.system system) :
    Joined host parentTaskId { s with system } := by
  obtain ⟨new, hids⟩ := hmoves.ids
  constructor
  · exact hmoves.stamped hfresh h.stamped
  · intro outcome houtcome
    obtain ⟨hreplacing, hnodup⟩ := h.outcomes outcome houtcome
    refine ⟨?_, hnodup⟩
    show Replacing system.ids outcome.summaries
    rw [hids]
    exact hreplacing.append new
  · show Replacing system.ids s.posted
    rw [hids]
    exact h.posted.append new
  · show JoinIndex.BuiltFrom system.index s.posted
    rw [System.index, hmoves.index]
    exact h.built
  · exact fun hne => hmoves.state (h.state hne)

theorem joined_poll (h : Joined host parentTaskId s) :
    Joined host parentTaskId (joinStep host parentTaskId s .poll) := by
  rw [joinStep]
  split
  · rename_i outcome hpoll
    rw [pollFanOutJoin, loadParent] at hpoll
    cases hstate : s.system.files.state with
    | none =>
      rw [hstate] at hpoll
      cases hpoll
    | some state =>
      rw [hstate] at hpoll
      dsimp only at hpoll
      split at hpoll
      · cases hpoll
      have htasks : s.system.tasks = state.sessionTasks := by rw [System.tasks, hstate]
      obtain ⟨new, hnew, hsublist, hfrom⟩ := collectTasks_spec (Except.ok.inj hpoll)
      have hsummaries : outcome.summaries = new := hnew
      have hstamped := h.stamped
      rw [htasks] at hstamped
      refine { h with outcomes := fun outcome' hmem => ?_, state := fun _ => ?_ }
      · rcases List.mem_append.mp hmem with hmem | hmem
        · exact h.outcomes outcome' hmem
        · rw [List.mem_singleton.mp hmem, hsummaries]
          constructor
          · refine ⟨fun post hpost id hid => ?_⟩
            obtain ⟨task, htask, summary, rfl⟩ := hfrom post hpost
            show Earlier s.system.ids id _
            rw [System.ids, htasks]
            exact (joinSummary_replacing hstamped htask summary).earlier _ List.mem_cons_self id hid
          · have hnodup := hstamped.nodup
            rw [ids_stamps] at hnodup
            exact hnodup.sublist hsublist
      · show s.system.files.state.isSome = true
        rw [hstate]
        rfl
  · exact h

variable (outcome : JoinOutcome)

theorem applyJoinOutcome_index (s : System) :
    (applyJoinOutcome host parentTaskId outcome s).1.index = s.index.postAll outcome.summaries := by
  rw [applyJoinOutcome]
  cases hsummaries : outcome.summaries with
  | nil => rfl
  | cons summary summaries =>
    rw [if_neg (by simp)]
    split <;> rfl

theorem applyJoinOutcome_tasks (s : System) :
    (applyJoinOutcome host parentTaskId outcome s).1.tick = s.tick ∧
      (applyJoinOutcome host parentTaskId outcome s).1.tasks = s.tasks ∧
      (s.files.state.isSome = true →
        (applyJoinOutcome host parentTaskId outcome s).1.files.state.isSome = true) := by
  rw [applyJoinOutcome, loadParent]
  split
  · exact ⟨rfl, rfl, id⟩
  cases hstate : s.files.state with
  | none =>
    refine ⟨rfl, ?_, fun h => by cases h⟩
    rw [System.tasks, System.tasks]
  | some state =>
    refine ⟨rfl, ?_, fun _ => rfl⟩
    rw [System.tasks, System.tasks, hstate]

theorem applyJoinOutcome_result {s : System} (hstate : s.files.state.isSome = true) :
    (applyJoinOutcome host parentTaskId outcome s).2 =
      .ok (if outcome.summaries = [] then []
        else (s.index.postAll outcome.summaries).liveEntries) := by
  rw [applyJoinOutcome, loadParent]
  obtain ⟨state, hstate⟩ := Option.isSome_iff_exists.mp hstate
  rw [hstate]
  cases hsummaries : outcome.summaries with
  | nil | cons summary summaries => rfl

theorem joined_apply (h : Joined host parentTaskId s) (k : ℕ) :
    Joined host parentTaskId (joinStep host parentTaskId s (.apply k)) := by
  rw [joinStep]
  cases hk : s.outcomes[k]? with
  | none => exact h
  | some outcome =>
    obtain ⟨htick, htasks, hstate⟩ := @applyJoinOutcome_tasks host parentTaskId outcome s.system
    have hids : (applyJoinOutcome host parentTaskId outcome s.system).1.ids = s.system.ids := by
      rw [System.ids, System.ids, htasks]
    have hreplacing := (h.outcomes outcome (List.mem_of_getElem? hk)).1
    constructor
    · show Stamped host parentTaskId (applyJoinOutcome host parentTaskId outcome s.system).1.tick _
      rw [htick]
      show Stamped host parentTaskId _
        ((applyJoinOutcome host parentTaskId outcome s.system).1.tasks.map stamp)
      rw [htasks]
      exact h.stamped
    · show ∀ outcome' ∈ s.outcomes,
        Replacing (applyJoinOutcome host parentTaskId outcome s.system).1.ids _ ∧ _
      rw [hids]
      exact h.outcomes
    · show Replacing (applyJoinOutcome host parentTaskId outcome s.system).1.ids _
      rw [hids]
      refine ⟨fun post hpost => ?_⟩
      rcases List.mem_append.mp hpost with hpost | hpost
      · exact h.posted.earlier post hpost
      · exact hreplacing.earlier post hpost
    · show JoinIndex.BuiltFrom (applyJoinOutcome host parentTaskId outcome s.system).1.index _
      rw [applyJoinOutcome_index]
      exact h.built.postAll outcome.summaries
    · exact fun hne => hstate (h.state hne)

theorem joinStep_tick (s : JoinState) (event : Event) :
    s.system.tick ≤ (joinStep host parentTaskId s event).system.tick := by
  cases event with
  | scheduleTeam team agents prompt => exact (scheduleTeam_moves team agents prompt s.system).le
  | advanceSequential team agents prompt =>
    exact (advanceSequential_moves team agents prompt s.system).le
  | updateStatus id status =>
    exact (updateSessionTaskStatus_moves id status s.system : Moves host parentTaskId _ _).le
  | handoff id summary =>
    exact (setHandoffSummary_moves id summary s.system : Moves host parentTaskId _ _).le
  | poll =>
    rw [joinStep]
    split <;> exact le_refl _
  | apply k =>
    rw [joinStep]
    split
    · exact le_refl _
    · exact (applyJoinOutcome_tasks _ s.system).1.ge

theorem joined_step (h : Joined host parentTaskId s) (event : Event)
    (hfresh : FreshUuids host (joinStep host parentTaskId s event).system.tick) :
    Joined host parentTaskId (joinStep host parentTaskId s event) := by
  cases event with
  | scheduleTeam team agents prompt =>
    exact h.moves hfresh (scheduleTeam_moves team agents prompt s.system)
  | advanceSequential team agents prompt =>
    exact h.moves hfresh (advanceSequential_moves team agents prompt s.system)
  | updateStatus id status => exact h.moves hfresh (updateSessionTaskStatus_moves id status s.system)
  | handoff id summary => exact h.moves hfresh (setHandoffSummary_moves id summary s.system)
  | poll => exact joined_poll h
  | apply k => exact joined_apply h k

theorem joined_start {files : ParentFiles} (h : NothingJoined files) :
    Joined host parentTaskId { system := { files } } := by
  have htasks : System.tasks { files } = [] := by
    rw [System.tasks]
    split
    · rename_i state hstate
      exact h.tasks state hstate
    · rfl
  constructor
  · show Stamped host parentTaskId 0 ((System.tasks { files }).map stamp)
    rw [htasks]
    exact ⟨nofun, List.Pairwise.nil, nofun⟩
  · exact nofun
  · exact ⟨nofun⟩
  · show JoinIndex.BuiltFrom (files.joinIndex.getD {}) []
    rw [h.index]
    exact builtFrom_new
  · exact fun h => absurd rfl h

theorem joined_run {files : ParentFiles} (hstart : NothingJoined files) (events : List Event)
    (hfresh : FreshUuids host (joinRun host parentTaskId { system := { files } } events).system.tick) :
    Joined host parentTaskId (joinRun host parentTaskId { system := { files } } events) := by
  induction events using List.reverseRecOn with
  | nil => exact joined_start hstart
  | append_singleton events event ih =>
    rw [joinRun, List.foldl_append] at hfresh ⊢
    exact joined_step (ih (hfresh.mono (joinStep_tick _ event))) event hfresh

/-! ### The join of a run -/

def JoinState.live (s : JoinState) : List LiveJoinEntry := s.system.index.liveEntries

theorem exists_unreplaced (hnodup : ids.Nodup) {posted : List JoinSummary}
    (h : Replacing ids posted) (hne : posted ≠ []) :
    ∃ post ∈ posted, ∀ other ∈ posted, post.messageId ∉ other.supersedes := by
  cases hmax : posted.argmax fun post => ids.idxOf post.messageId with
  | none => exact absurd (List.argmax_eq_none.mp hmax) hne
  | some post =>
    refine ⟨post, List.argmax_mem hmax, fun other hother hid => ?_⟩
    have hlt := (h.earlier other hother _ hid).idxOf_lt hnodup
    have hle : ids.idxOf other.messageId ≤ ids.idxOf post.messageId :=
      List.le_of_mem_argmax hother hmax
    omega

/-- **Joins along a run**: the live entries are the posted summaries that no other posted one replaces,
with the text last posted; summaries only replace earlier tasks, so something stays live; and of an
outcome that was polled neither the order nor a second application matters. -/
theorem join_refines (host : TaskHost) (parentTaskId : String) (files : ParentFiles)
    (hstart : NothingJoined files) (events : List Event)
    (hfresh : FreshUuids host (joinRun host parentTaskId { system := { files } } events).system.tick) :
    let s := joinRun host parentTaskId { system := { files } } events
    (s.live.map LiveJoinEntry.id).Nodup ∧
      (∀ id, id ∈ s.live.map LiveJoinEntry.id ↔
        id ∈ s.posted.map JoinSummary.messageId ∧
          ¬ ∃ other ∈ s.posted, other.messageId ≠ id ∧ id ∈ other.supersedes) ∧
      (∀ entry ∈ s.live, EntryOf entry.id s.posted entry) ∧
      (∀ post ∈ s.posted, ∀ id ∈ post.supersedes, Earlier s.system.ids id post.messageId) ∧
      (s.posted ≠ [] → s.live ≠ []) ∧
      ∀ outcome ∈ s.outcomes,
        let applied := applyJoinOutcome host parentTaskId outcome s.system
        applied.2 = .ok (if outcome.summaries = [] then [] else applied.1.index.liveEntries) ∧
          (∀ summaries, outcome.summaries.Perm summaries →
            applyJoinOutcome host parentTaskId { outcome with summaries } s.system = applied) ∧
          (applyJoinOutcome host parentTaskId outcome applied.1).2 = applied.2 ∧
          (applyJoinOutcome host parentTaskId outcome applied.1).1.index = applied.1.index := by
  intro s
  have h := joined_run hstart events hfresh
  have hids : s.system.ids.Nodup := by
    have hnodup := h.stamped.nodup
    rw [ids_stamps] at hnodup
    exact hnodup
  have hself : ∀ post ∈ s.posted, post.messageId ∉ post.supersedes := fun post hpost hid =>
    absurd ((h.posted.earlier post hpost _ hid).idxOf_lt hids) (lt_irrefl _)
  refine ⟨nodup_liveEntries h.built, fun id => ?_,
    fun entry hentry => liveEntries_entryOf h.built hentry, h.posted.earlier, ?_, ?_⟩
  · rw [JoinState.live, mem_liveEntries h.built]
    refine and_congr_right fun _ => ⟨?_, ?_⟩
    · rintro hnone ⟨other, hother, -, hid⟩
      exact hnone other hother hid
    · intro hnone other hother hid
      refine hnone ⟨other, hother, ?_, hid⟩
      rintro rfl
      exact hself other hother hid
  · intro hne
    obtain ⟨post, hpost, hunreplaced⟩ := exists_unreplaced hids h.posted hne
    have hlive : post.messageId ∈ s.live.map LiveJoinEntry.id :=
      (mem_liveEntries h.built _).mpr ⟨List.mem_map_of_mem hpost, hunreplaced⟩
    intro hnil
    rw [hnil] at hlive
    cases hlive
  · intro outcome houtcome
    have hstate := h.state (List.ne_nil_of_mem houtcome)
    have hnodup := (h.outcomes outcome houtcome).2
    have hsorted : Sorted s.system.index.entries := h.built.1
    refine ⟨?_, fun summaries hperm => ?_, ?_, ?_⟩
    · rw [applyJoinOutcome_result outcome hstate, applyJoinOutcome_index]
    · have hmerge : (s.system.files.joinIndex.getD {}).postAll summaries =
          (s.system.files.joinIndex.getD {}).postAll outcome.summaries :=
        (postAll_perm hsorted hnodup hperm).symm
      rw [applyJoinOutcome, applyJoinOutcome]
      rw [← hperm.isEmpty_eq, hmerge]
    · rw [applyJoinOutcome_result outcome hstate, applyJoinOutcome_result outcome
        ((applyJoinOutcome_tasks outcome s.system).2.2 hstate), applyJoinOutcome_index,
        postAll_twice hsorted hnodup]
    · rw [applyJoinOutcome_index, applyJoinOutcome_index, postAll_twice hsorted hnodup]

/-! ### Two members in sequence -/

def sampleEvents : List Event :=
  [.scheduleTeam sampleTeam sampleAgents "work", .updateStatus (sampleId "a" 0) .completed,
    .handoff (sampleId "a" 0) "first", .poll, .apply 0,
    .advanceSequential sampleTeam sampleAgents "work", .updateStatus (sampleId "b" 1) .completed,
    .handoff (sampleId "b" 1) "second", .poll, .apply 1]

theorem sample_fresh :
    FreshUuids sampleHost (joinRun sampleHost "p" { system := { files := {} } } sampleEvents).system.tick := by
  have htick : (joinRun sampleHost "p" { system := { files := {} } } sampleEvents).system.tick = 2 := by
    decide +kernel
  rw [htick]
  exact ⟨by decide +kernel, by decide +kernel⟩

theorem join_refines_sample :
    (joinRun sampleHost "p" { system := { files := {} } } sampleEvents).live ≠ [] ∧
      sampleId "a" 0 ∈ (joinRun sampleHost "p" { system := { files := {} } } sampleEvents).posted.map
        JoinSummary.messageId ∧
      sampleId "a" 0 ∉ (joinRun sampleHost "p" { system := { files := {} } } sampleEvents).live.map
        LiveJoinEntry.id := by
  have hstart : NothingJoined {} := ⟨rfl, fun _ h => by cases h⟩
  obtain ⟨-, hlive, -, -, hne, -⟩ := join_refines sampleHost "p" {} hstart sampleEvents sample_fresh
  refine ⟨hne (by decide +kernel), by decide +kernel, fun h => ?_⟩
  exact ((hlive _).mp h).2 (by decide +kernel)

end Vexcoder.Subtask

import Vexcoder.Subtask.StateTree
import Vexcoder.Subtask.TaskStore

/-!
# What a delegation does to its parent

`facade_delegate_session_task` and `schedule_team` load the parent from the state directory, add session
tasks and save it there.  The first takes any failure of the load for a parent that is new, the second
only a file that is missing; neither looks into the other search directory.
-/

namespace Vexcoder.Subtask

open Base
open Vexcoder.Task

namespace StateTree

variable {Place : Type} [DecidableEq Place] (host : TreeHost Place)
  (config : Except String (Option AgentsConfig))

/-- The parent that `facade_delegate_session_task` goes on with, nothing when the load does not end. -/
def delegateParent (tree : StateTree Place) (parentTaskId : String) : Option TaskState :=
  (tree.load host host.stateDir parentTaskId).map fun loaded =>
    match loaded with
    | .ok state => state
    | .error _ => newTaskState parentTaskId (host.clock tree.tick)

def delegateFrom (parentTaskId : String) (agent : AgentProfile) (agentId prompt : String)
    (tree : StateTree Place) (parentState : TaskState) :
    StateTree Place × Except String (String × String) :=
  let begun := { tree with tick := tree.tick + 1 }
  match spawn host.toTaskHost parentTaskId agent agentId prompt parentState.sessionTasks false tree.tick with
  | .error error => (begun, .error error)
  | .ok task =>
    match save host begun host.stateDir (parentState.addSessionTask task (host.clock tree.tick)) with
    | (tree, .error error) => (tree, .error error)
    | (tree, .ok ()) => (tree.writeProjectionRollup host, .ok (parentTaskId, task.id))

/-- `facade_delegate_session_task`: the ids of the parent and of the new task. -/
def facadeDelegateSessionTask (parentTaskId : Option String) (agentId prompt : String)
    (tree : StateTree Place) : Option (StateTree Place × Except String (String × String)) :=
  match parentTaskId.filter fun id => !Text.isEmpty (Text.trim id) with
  | none => some (tree, .error "parent_task_id_required")
  | some parentTaskId =>
    if byteLen prompt.toList > maxDelegatePromptBytes then some (tree, .error "prompt_too_long")
    else match config with
      | .error error => some (tree, .error error)
      | .ok none => some (tree, .error "agents_config_missing")
      | .ok (some config) =>
        match config.agent agentId with
        | none => some (tree, .error "agent_not_found")
        | some agent =>
          match host.delegateLock with
          | .error error => some (tree, .error error)
          | .ok () =>
            if agent.maxParallelTasks ≤ tree.liveCount host agentId then
              some (tree, .error "concurrency_limit_reached")
            else (tree.delegateParent host parentTaskId).map fun parentState =>
              delegateFrom host parentTaskId agent.toAgentProfile agentId prompt tree parentState

/-- The parent that `schedule_team` goes on with: a file that is there has to be readable. -/
def teamParent (tree : StateTree Place) (parentTaskId : String) : Option (Except String TaskState) :=
  if (tree.fileAt host host.stateDir parentTaskId).isSome then
    tree.load host host.stateDir parentTaskId
  else some (.ok (newTaskState parentTaskId (host.clock tree.tick)))

/-- `SubtaskOrchestrator::schedule_team` -/
def scheduleTeam (parentTaskId : String) (team : TeamDefinition) (agents : List AgentProfile)
    (prompt : String) (tree : StateTree Place) :
    Option (StateTree Place × Except String TeamDecomposition) :=
  if team.members.isEmpty then
    some (tree, .error ("team '" ++ team.name ++ "' has no members"))
  else (tree.teamParent host parentTaskId).map fun loaded =>
    match loaded with
    | .error error => (tree, .error error)
    | .ok parentState =>
      match createMembers host.toTaskHost parentTaskId agents prompt (team.scheduler = .sequential)
          (membersToCreate team) tree.tick parentState with
      | (tick, .error error) => ({ tree with tick }, .error error)
      | (tick, .ok (parentState, sessionTaskIds)) =>
        match save host { tree with tick } host.stateDir parentState with
        | (tree, .error error) => (tree, .error error)
        | (tree, .ok ()) =>
          (tree, .ok { parentTaskId, sessionTaskIds, scheduler := team.scheduler })

/-! ### The two calls -/

inductive Delegation where
  | delegate (parentTaskId : Option String) (agentId prompt : String)
  | scheduleTeam (parentTaskId : String) (team : TeamDefinition) (agents : List AgentProfile)
    (prompt : String)

def Delegation.parentTaskId : Delegation → String
  | .delegate parentTaskId .. => parentTaskId.getD ""
  | .scheduleTeam parentTaskId .. => parentTaskId

/-- The tree that the call leaves and the ids of the session tasks that it has added. -/
def runCall (tree : StateTree Place) : Delegation → Option (StateTree Place × Except String (List String))
  | .delegate parentTaskId agentId prompt =>
    (facadeDelegateSessionTask host config parentTaskId agentId prompt tree).map fun run =>
      (run.1, run.2.map fun ids => [ids.2])
  | .scheduleTeam parentTaskId team agents prompt =>
    (scheduleTeam host parentTaskId team agents prompt tree).map fun run =>
      (run.1, run.2.map TeamDecomposition.sessionTaskIds)

/-- An error that leaves every file as it was, or the newest state of the parent with the tasks that were
added to it. -/
def ParentKept (tree : StateTree Place) (call : Delegation) : Prop :=
  tree.HasFile host call.parentTaskId → ∃ tree' result,
    tree.runCall host config call = some (tree', result) ∧
      ((∃ error, result = .error error) ∧ tree'.files = tree.files ∨
        ∃ ids before after, result = .ok ids ∧ tree.newestState host call.parentTaskId = some before ∧
          tree'.newestState host call.parentTaskId = some after ∧ TaskState.Adds before after ids)

/-! ### The condition -/

/-- The parent state that the call starts from, as far as the load ends. -/
def startOf (tree : StateTree Place) : Delegation → Option (Except String TaskState)
  | .delegate parentTaskId .. => (tree.delegateParent host (parentTaskId.getD "")).map .ok
  | .scheduleTeam parentTaskId .. => tree.teamParent host parentTaskId

/-- The checks in front of the load. -/
def Admitted (tree : StateTree Place) : Delegation → Prop
  | .delegate parentTaskId agentId prompt =>
    (∃ id, parentTaskId = some id ∧ Text.isEmpty (Text.trim id) = false) ∧
      byteLen prompt.toList ≤ maxDelegatePromptBytes ∧
      ∃ agents agent, config = .ok (some agents) ∧ agents.agent agentId = some agent ∧
        host.delegateLock = .ok () ∧ tree.liveCount host agentId < agent.maxParallelTasks
  | .scheduleTeam _ team _ _ => team.members ≠ []

/-- The worktree of a session task is to be had. -/
def LeaseGranted (parentTaskId : String) (agent : AgentProfile) (memberName : String) (tick : ℕ) :
    Prop :=
  agent.isolation = .worktree → (host.leaseForTask
    (parentTaskId ++ "-" ++ memberName ++ "-" ++ host.uuid tick) (some parentTaskId)).isOk = true

/-- The members are agents, and their worktrees are to be had. -/
def MembersGranted (parentTaskId : String) (agents : List AgentProfile) : List String → ℕ → Prop
  | [], _ => True
  | memberName :: members, tick =>
    (∃ agent, findAgent agents memberName = .ok agent ∧
      LeaseGranted host parentTaskId agent memberName tick) ∧
      MembersGranted parentTaskId agents members (tick + 1)

def Granted (tree : StateTree Place) : Delegation → Prop
  | .delegate parentTaskId agentId _ => ∀ agents agent, config = .ok (some agents) →
      agents.agent agentId = some agent →
        LeaseGranted host (parentTaskId.getD "") agent.toAgentProfile agentId tree.tick
  | .scheduleTeam parentTaskId team agents _ =>
    MembersGranted host parentTaskId agents (membersToCreate team) tree.tick

def SaveGoesThrough (tree : StateTree Place) (start : TaskState) : Prop :=
  isPermitted host (statePath host.stateDir start.id) = true ∧ host.saveError tree.saves = none

/-- The places that the rollups after the call are written to. -/
def rolledBy (tree : StateTree Place) : Delegation → List Place
  | .delegate .. => host.rollups (tree.saves + 1)
  | .scheduleTeam .. => []

/-- The call is refused before the load, or the load ends, and where it goes on to the end from a state
this is the newest one of the parent, and what it writes stays the newest file. -/
def KeepsParent (tree : StateTree Place) (call : Delegation) : Prop :=
  Admitted host config tree call →
    ∃ loaded, startOf host tree call = some loaded ∧ ∀ start, loaded = .ok start →
      Granted host config tree call → SaveGoesThrough host tree start →
        (∃ before, tree.newestState host call.parentTaskId = some before ∧
          TaskState.SameButTime before start) ∧
        StaysNewest host tree (rolledBy host tree call) call.parentTaskId start

/-- The id of a session task of the parent that is begun from here on. -/
def Drawn (parentTaskId : String) (tick : ℕ) (id : String) : Prop :=
  ∃ memberName n, tick ≤ n ∧ id = parentTaskId ++ "-" ++ memberName ++ "-" ++ host.uuid n

/-- `Uuid::new_v4` gives no id that a session task of the parent has already. -/
def DrawsFresh (tree : StateTree Place) (parentTaskId : String) : Prop :=
  ∀ dir ∈ searchDirs host, ∀ file stored, tree.fileAt host dir parentTaskId = some file →
    file.text = .state stored → ∀ task ∈ stored.sessionTasks, ¬ Drawn host parentTaskId tree.tick task.id

/-! ### Adding session tasks -/

variable {host config} {tree : StateTree Place}

theorem adds_one (state : TaskState) (task : SessionTask) (now : ℕ) :
    TaskState.Adds state (state.addSessionTask task now) [task.id] :=
  ⟨[task], rfl, rfl⟩

theorem adds_trans {state' state'' : TaskState} {ids ids' : List String}
    (h : TaskState.Adds state state' ids) (h' : TaskState.Adds state' state'' ids') :
    TaskState.Adds state state'' (ids ++ ids') := by
  obtain ⟨added, rfl, hsame⟩ := h
  obtain ⟨added', rfl, hsame'⟩ := h'
  refine ⟨added ++ added', List.map_append, ?_⟩
  rw [← List.append_assoc]
  have htasks : state.sessionTasks ++ added = state'.sessionTasks := hsame.sessionTasks_eq
  rw [htasks]
  exact (hsame.withTasks _).trans hsame'

omit [DecidableEq Place] in
theorem spawn_ok_iff {host : TreeHost Place} {parentTaskId memberName prompt : String}
    {agent : AgentProfile} {existing : List SessionTask} {sequential : Bool} {tick : ℕ} :
    (∃ task, spawn host.toTaskHost parentTaskId agent memberName prompt existing sequential tick =
        .ok task) ↔ LeaseGranted host parentTaskId agent memberName tick := by
  rw [LeaseGranted, spawn]
  by_cases hworktree : agent.isolation = .worktree
  · rw [if_pos hworktree]
    have hid : ((SessionTask.new parentTaskId memberName prompt none (host.uuid tick)
        (host.clock tick)).stampJoinSupersedes existing sequential).id =
          parentTaskId ++ "-" ++ memberName ++ "-" ++ host.uuid tick := rfl
    rw [hid]
    cases host.leaseForTask (parentTaskId ++ "-" ++ memberName ++ "-" ++ host.uuid tick)
        (some parentTaskId) with
    | error error => simp [hworktree, Except.isOk, Except.toBool]
    | ok path => simp [Except.isOk, Except.toBool]
  · rw [if_neg hworktree]
    exact ⟨fun _ h => absurd h hworktree, fun _ => ⟨_, rfl⟩⟩

omit [DecidableEq Place] in
theorem createMembers_cases (host : TreeHost Place) (parentTaskId prompt : String)
    (agents : List AgentProfile) (sequential : Bool) (members : List String) (tick : ℕ) (state : TaskState) :
    (∃ tick' error, createMembers host.toTaskHost parentTaskId agents prompt sequential members tick
        state = (tick', .error error) ∧ ¬ MembersGranted host parentTaskId agents members tick) ∨
      ∃ tick' state' ids, createMembers host.toTaskHost parentTaskId agents prompt sequential members
          tick state = (tick', .ok (state', ids)) ∧
        MembersGranted host parentTaskId agents members tick ∧ TaskState.Adds state state' ids ∧
          ids.length = members.length ∧ ∀ id ∈ ids, Drawn host parentTaskId tick id := by
  induction members generalizing tick state with
  | nil =>
    exact .inr ⟨tick, state, [], rfl, trivial, TaskState.adds_nil state, rfl, fun _ h => by cases h⟩
  | cons memberName members ih =>
    rw [createMembers, MembersGranted]
    cases hagent : findAgent agents memberName with
    | error error => exact .inl ⟨_, _, rfl, fun ⟨⟨agent, hfound, _⟩, _⟩ => by cases hfound⟩
    | ok agent =>
      have hgranted : (∃ agent', (Except.ok agent : Except String AgentProfile) = .ok agent' ∧
          LeaseGranted host parentTaskId agent' memberName tick) ↔
            LeaseGranted host parentTaskId agent memberName tick := by
        simp
      rw [hgranted]
      dsimp only
      cases hspawn : spawn host.toTaskHost parentTaskId agent memberName prompt state.sessionTasks
          sequential tick with
      | error error =>
        refine .inl ⟨_, _, rfl, fun h => ?_⟩
        obtain ⟨task, htask⟩ := spawn_ok_iff.mpr h.1
        cases hspawn.symm.trans htask
      | ok task =>
        have hlease := spawn_ok_iff.mp ⟨task, hspawn⟩
        obtain ⟨hid, -⟩ := spawn_spec hspawn
        dsimp only
        obtain ⟨tick', error, hrest, hrefused⟩ | ⟨tick', state', ids, hrest, hrest', hadds, hlength,
          hdrawn⟩ := ih (tick + 1) (state.addSessionTask task (host.clock tick))
        · rw [hrest]
          exact .inl ⟨_, _, rfl, fun h => hrefused h.2⟩
        · rw [hrest]
          refine .inr ⟨_, _, _, rfl, ⟨hlease, hrest'⟩,
            adds_trans (adds_one state task _) hadds, congrArg Nat.succ hlength, ?_⟩
          intro id hmem
          obtain rfl | hmem := List.mem_cons.mp hmem
          · exact ⟨memberName, tick, Nat.le_refl _, hid⟩
          · obtain ⟨name, n, hn, heq⟩ := hdrawn id hmem
            exact ⟨name, n, by omega, heq⟩

theorem save_cases (host : TreeHost Place) (tree : StateTree Place) (state : TaskState) :
    (SaveGoesThrough host tree state ∧ tree.save host host.stateDir state =
        ({ tree with
            files := Function.update tree.files (target host state) (some (savedFile host state tree.saves))
            saves := tree.saves + 1 }, .ok ())) ∨
      ¬ SaveGoesThrough host tree state ∧ ∃ tree' error,
        tree.save host host.stateDir state = (tree', .error error) ∧ tree'.files = tree.files := by
  rw [save, SaveGoesThrough, isPermitted]
  cases enforce (statePath host.stateDir state.id) host.policyMode with
  | error error => exact .inr ⟨by simp [Except.isOk, Except.toBool], _, _, rfl, rfl⟩
  | ok permission =>
    cases hsave : host.saveError tree.saves with
    | some error => exact .inr ⟨by simp, _, _, rfl, rfl⟩
    | none => exact .inl ⟨⟨rfl, rfl⟩, rfl⟩

/-! ### The ways in which a call ends -/

variable {call : Delegation}

inductive CallEnds (host : TreeHost Place) (config : Except String (Option AgentsConfig))
    (tree : StateTree Place) (call : Delegation) :
    Option (StateTree Place × Except String (List String)) → Prop where
  | refused (error : String) (h : ¬ Admitted host config tree call) :
    CallEnds host config tree call (some (tree, .error error))
  | endless (h : Admitted host config tree call) (hload : startOf host tree call = none) :
    CallEnds host config tree call none
  | unread (error error' : String) (h : Admitted host config tree call)
    (hload : startOf host tree call = some (.error error')) :
    CallEnds host config tree call (some (tree, .error error))
  | failed (start : TaskState) (tree' : StateTree Place) (error : String)
    (h : Admitted host config tree call) (hload : startOf host tree call = some (.ok start))
    (hfails : ¬ (Granted host config tree call ∧ SaveGoesThrough host tree start))
    (hfiles : tree'.files = tree.files) :
    CallEnds host config tree call (some (tree', .error error))
  | saved (start state : TaskState) (tree' : StateTree Place) (ids : List String)
    (h : Admitted host config tree call) (hload : startOf host tree call = some (.ok start))
    (hgranted : Granted host config tree call) (hsave : SaveGoesThrough host tree start)
    (hfiles : tree'.files = filesAfter host tree state (rolledBy host tree call))
    (hadds : TaskState.Adds start state ids) (hids : ids ≠ [])
    (hdrawn : ∀ id ∈ ids, Drawn host call.parentTaskId tree.tick id) :
    CallEnds host config tree call (some (tree', .ok ids))

theorem delegateFrom_cases {id agentId prompt : String} {agent : AgentProfile} {start : TaskState}
    (hadmitted : Admitted host config tree (.delegate (some id) agentId prompt))
    (hload : startOf host tree (.delegate (some id) agentId prompt) = some (.ok start))
    (hgranted : Granted host config tree (.delegate (some id) agentId prompt) ↔
      LeaseGranted host id agent agentId tree.tick) :
    CallEnds host config tree (.delegate (some id) agentId prompt)
      (some ((delegateFrom host id agent agentId prompt tree start).1,
        (delegateFrom host id agent agentId prompt tree start).2.map fun ids => [ids.2])) := by
  rw [delegateFrom]
  cases hspawn : spawn host.toTaskHost id agent agentId prompt start.sessionTasks false tree.tick with
  | error error =>
    refine .failed start _ _ hadmitted hload (fun h => ?_) rfl
    obtain ⟨task, htask⟩ := spawn_ok_iff.mpr (hgranted.mp h.1)
    cases hspawn.symm.trans htask
  | ok task =>
    have hlease := hgranted.mpr (spawn_ok_iff.mp ⟨task, hspawn⟩)
    obtain ⟨hid, -⟩ := spawn_spec hspawn
    dsimp only
    obtain ⟨hsave, hrun⟩ | ⟨hsave, tree', error, hrun, hfiles⟩ :=
      save_cases host { tree with tick := tree.tick + 1 } (start.addSessionTask task (host.clock tree.tick))
    · rw [hrun]
      refine .saved start _ _ [task.id] hadmitted hload hlease hsave rfl
        (adds_one start task _) (List.cons_ne_nil _ _) ?_
      intro id' hmem
      obtain rfl := List.mem_singleton.mp hmem
      exact ⟨agentId, tree.tick, Nat.le_refl _, hid⟩
    · rw [hrun]
      exact .failed start _ _ hadmitted hload (fun h => hsave h.2) hfiles

theorem delegate_cases (parentTaskId : Option String) (agentId prompt : String) :
    CallEnds host config tree (.delegate parentTaskId agentId prompt)
      (tree.runCall host config (.delegate parentTaskId agentId prompt)) := by
  rw [runCall, facadeDelegateSessionTask]
  cases hparent : parentTaskId.filter fun id => !Text.isEmpty (Text.trim id) with
  | none =>
    refine .refused _ ?_
    rintro ⟨⟨id, rfl, hblank⟩, -⟩
    rw [Option.filter_some, hblank] at hparent
    cases hparent
  | some id =>
    obtain ⟨rfl, hblank⟩ := Option.filter_eq_some_iff.mp hparent
    dsimp only
    by_cases hlong : byteLen prompt.toList > maxDelegatePromptBytes
    · rw [if_pos hlong]
      exact .refused _ fun h => absurd h.2.1 (Nat.not_le.mpr hlong)
    rw [if_neg hlong]
    cases hconfig : config with
    | error error =>
      refine .refused _ ?_
      rintro ⟨-, -, agents, -, hagents, -⟩
      cases hagents
    | ok found =>
      cases found with
      | none =>
        refine .refused _ ?_
        rintro ⟨-, -, agents, -, hagents, -⟩
        cases hagents
      | some agents =>
        dsimp only
        cases hagent : agents.agent agentId with
        | none =>
          refine .refused _ ?_
          rintro ⟨-, -, _, agent, hagents, hfound, -⟩
          cases hagents
          rw [hagent] at hfound
          cases hfound
        | some agent =>
          cases hlock : host.delegateLock with
          | error error =>
            refine .refused _ ?_
            rintro ⟨-, -, _, _, -, -, hfound, -⟩
            rw [hlock] at hfound
            cases hfound
          | ok _ =>
            dsimp only
            by_cases hlive : agent.maxParallelTasks ≤ tree.liveCount host agentId
            · rw [if_pos hlive]
              refine .refused _ ?_
              rintro ⟨-, -, _, _, hagents, hfound, -, hfree⟩
              cases hagents
              rw [hagent] at hfound
              cases hfound
              exact absurd hlive (Nat.not_le.mpr hfree)
            rw [if_neg hlive]
            have hadmitted : Admitted host (.ok (some agents)) tree (.delegate (some id) agentId prompt) :=
              ⟨⟨id, rfl, by simpa using hblank⟩, Nat.not_lt.mp hlong, agents, agent, rfl, hagent,
                hlock, Nat.not_le.mp hlive⟩
            have hgranted : Granted host (.ok (some agents)) tree
                (.delegate (some id) agentId prompt) ↔
                LeaseGranted host id agent.toAgentProfile agentId tree.tick := by
              constructor
              · intro h
                exact h agents agent rfl hagent
              · intro h agents' agent' hagents' hagent'
                cases hagents'
                rw [hagent] at hagent'
                cases hagent'
                exact h
            cases hstart : tree.delegateParent host id with
            | none => exact .endless hadmitted (by rw [startOf, Option.getD_some, hstart]; rfl)
            | some start =>
              have hload : startOf host tree (.delegate (some id) agentId prompt) = some (.ok start) := by
                rw [startOf, Option.getD_some, hstart]
                rfl
              exact delegateFrom_cases hadmitted hload hgranted

theorem membersToCreate_ne_nil {team : TeamDefinition} (h : team.members ≠ []) :
    membersToCreate team ≠ [] := by
  rw [membersToCreate]
  cases team.scheduler with
  | fanOutJoin => exact h
  | sequential => simp [h]

theorem scheduleTeam_cases (parentTaskId : String) (team : TeamDefinition)
    (agents : List AgentProfile) (prompt : String) :
    CallEnds host config tree (.scheduleTeam parentTaskId team agents prompt)
      (tree.runCall host config (.scheduleTeam parentTaskId team agents prompt)) := by
  rw [runCall, scheduleTeam]
  by_cases hmembers : team.members = []
  · rw [hmembers]
    exact .refused _ fun h => h hmembers
  rw [if_neg (by rw [List.isEmpty_iff]; exact hmembers)]
  have hne := membersToCreate_ne_nil hmembers
  have hadmitted : Admitted host config tree (.scheduleTeam parentTaskId team agents prompt) :=
    hmembers
  cases hstart : tree.teamParent host parentTaskId with
  | none => exact .endless hadmitted hstart
  | some loaded =>
    cases loaded with
    | error error => exact .unread error error hadmitted hstart
    | ok start =>
      rw [Option.map_some]
      dsimp only
      obtain ⟨tick, error, hrun, hrefused⟩ | ⟨tick, state, ids, hrun, hgranted, hadds, hlength,
        hdrawn⟩ := createMembers_cases host parentTaskId prompt agents
          (decide (team.scheduler = .sequential)) (membersToCreate team) tree.tick start
      · rw [hrun]
        exact .failed start _ _ hadmitted hstart (fun h => hrefused h.1) rfl
      · rw [hrun]
        dsimp only
        have hids : ids ≠ [] := by
          rw [← List.length_pos_iff, hlength]
          exact List.length_pos_iff.mpr hne
        have hthrough : SaveGoesThrough host { tree with tick } state ↔
            SaveGoesThrough host tree start := by
          rw [SaveGoesThrough, SaveGoesThrough, adds_id hadds]
        obtain ⟨hsave, hsaved⟩ | ⟨hsave, tree', error, hsaved, hfiles⟩ :=
          save_cases host ({ tree with tick } : StateTree Place) state
        · rw [hsaved]
          refine .saved start state _ ids hadmitted hstart hgranted (hthrough.mp hsave) ?_ hadds hids hdrawn
          funext place
          rw [filesAfter, rolledBy, if_neg List.not_mem_nil]
        · rw [hsaved]
          exact .failed start _ _ hadmitted hstart (fun h => hsave (hthrough.mpr h.2)) hfiles

/-- **Every call ends in one of five ways.** -/
theorem runCall_cases (tree : StateTree Place) (call : Delegation) :
    CallEnds host config tree call (tree.runCall host config call) := by
  cases call with
  | delegate parentTaskId agentId prompt => exact delegate_cases parentTaskId agentId prompt
  | scheduleTeam parentTaskId team agents prompt =>
    exact scheduleTeam_cases parentTaskId team agents prompt

/-! ### The parent is kept -/

omit [DecidableEq Place] in
theorem loaded_settled {dir id : String} {start : TaskState}
    (h : tree.load host dir id = some (.ok start)) : start.Settled := by
  obtain ⟨-, _, stored, -, -, hstored⟩ := load_ok_iff.mp h
  exact TaskState.normalize_settled hstored

theorem newTaskState_settled (id : String) (now : ℕ) : (newTaskState id now).Settled := by
  have hsame : (newTaskState id now).normalize now = some (newTaskState id now) := by
    by_cases hzero : now = 0
    · rw [hzero]
      rfl
    · show some { newTaskState id now with updatedAt := if now = 0 then now else now } = _
      rw [if_neg hzero]
      rfl
  exact TaskState.normalize_settled hsame

omit [DecidableEq Place] in
theorem startOf_settled {start : TaskState} (h : startOf host tree call = some (.ok start)) :
    start.Settled := by
  cases call with
  | delegate parentTaskId agentId prompt =>
    obtain ⟨state, hstate, hstart⟩ := Option.map_eq_some_iff.mp h
    cases hstart
    obtain ⟨loaded, hloaded, hstart⟩ := Option.map_eq_some_iff.mp hstate
    cases loaded with
    | error error =>
      cases hstart
      exact newTaskState_settled _ _
    | ok state =>
      cases hstart
      exact loaded_settled hloaded
  | scheduleTeam parentTaskId team agents prompt =>
    rw [startOf, teamParent] at h
    split at h
    · exact loaded_settled h
    · cases h
      exact newTaskState_settled _ _

omit [DecidableEq Place] in
theorem freshIds_of_drawn {parentTaskId : String} {ids : List String}
    (hfresh : DrawsFresh host tree parentTaskId) (hdrawn : ∀ id ∈ ids, Drawn host parentTaskId tree.tick id) :
    FreshIds host tree parentTaskId ids :=
  fun dir hdir file stored hfile htext task htask hmem =>
    hfresh dir hdir file stored hfile htext task htask (hdrawn _ hmem)

/-- **A delegation keeps its parent** exactly when it is refused or fails, or starts from the newest state
of the parent and writes what is its newest file then. -/
theorem parentKept_iff (config : Except String (Option AgentsConfig)) (tree : StateTree Place)
    (call : Delegation) (hfresh : DrawsFresh host tree call.parentTaskId) :
    ParentKept host config tree call ↔
      (tree.HasFile host call.parentTaskId → KeepsParent host config tree call) := by
  refine imp_congr_right fun _ => ?_
  have hends : CallEnds host config tree call (tree.runCall host config call) :=
    runCall_cases tree call
  generalize tree.runCall host config call = run at hends
  cases hends with
  | refused error h =>
    exact ⟨fun _ hadmitted => absurd hadmitted h,
      fun _ => ⟨tree, _, rfl, .inl ⟨⟨error, rfl⟩, rfl⟩⟩⟩
  | endless h hload =>
    constructor
    · rintro ⟨_, _, hrun, -⟩
      cases hrun
    · intro hkeeps
      obtain ⟨_, hstart, -⟩ := hkeeps h
      rw [hload] at hstart
      cases hstart
  | unread error error' h hload =>
    exact ⟨fun _ _ => ⟨_, hload, fun _ hok => by cases hok⟩,
      fun _ => ⟨tree, _, rfl, .inl ⟨⟨error, rfl⟩, rfl⟩⟩⟩
  | failed start tree' error h hload hfails hfiles =>
    refine ⟨fun _ _ => ⟨_, hload, ?_⟩, fun _ => ⟨tree', _, rfl, .inl ⟨⟨error, rfl⟩, hfiles⟩⟩⟩
    intro start' hok hgranted hsave
    cases hok
    exact absurd ⟨hgranted, hsave⟩ hfails
  | saved start state tree' ids h hload hgranted hsave hfiles hadds hids hdrawn =>
    have hwritten := newestState_written hfiles hadds hids (startOf_settled hload)
      (freshIds_of_drawn hfresh hdrawn)
    constructor
    · rintro ⟨tree'', result, hrun, ⟨⟨error, hresult⟩, -⟩ | ⟨ids', before, after, hresult, hkept⟩⟩ -
      · rw [hresult] at hrun
        cases hrun
      · rw [hresult] at hrun
        cases hrun
        refine ⟨_, hload, ?_⟩
        intro start' hok _ _
        cases hok
        exact hwritten.mp ⟨before, after, hkept⟩
    · intro hkeeps
      obtain ⟨loaded, hstart, hkeeps⟩ := hkeeps h
      cases hload.symm.trans hstart
      obtain ⟨before, after, hkept⟩ := hwritten.mpr (hkeeps start rfl hgranted hsave)
      exact ⟨tree', _, rfl, .inr ⟨ids, before, after, rfl, hkept⟩⟩

def sampleTreeHost : TreeHost String where
  toTaskHost := sampleHost
  legacyDir := none
  place := id
  readDir _ dir := if dir = "state" then ["p.json"] else []
  policyMode := .off
  modified n := 1000000 * (n + 1)
  saveError _ := none
  delegateLock := .ok ()
  rollups _ := ["state/projections/task-graph.json", "state/projections/todos.json"]
  maxScans := 512

def sampleAgentsConfig : AgentsConfig :=
  { agentProfiles := [{ name := "a", isolation := .shared }] }

def treeOf (text : StateText) : StateTree String where
  files place := if place = "state/p.json" then some { text, header := none, modified := 0 } else none

/-- A parent with a task of agent `b`, which was begun first. -/
def sampleParent : TaskState :=
  { id := "p"
    changedFiles := ["src/main.rs"]
    commandHistory := [{ program := "git_add", exitCode := some 0, interrupted := false }]
    pulses := [{ input := "fix it", response := "done", changedFiles := ["src/main.rs"] }]
    plan := some "delegate the rest"
    sessionTasks := [SessionTask.new "p" "b" "review" none (sampleUuid 0) 0] }

def parentTree : StateTree String where
  files place :=
    if place = "state/p.json" then
      some { text := .state sampleParent, header := some (headerOf sampleParent), modified := 0 }
    else none
  tick := 1

theorem last_eq {front front' text text' : String} {start : List Char} {c d : Char}
    (h : front ++ text = front' ++ text') (htext : text = String.ofList (start ++ [c]))
    (htext' : text' = String.ofList (start ++ [d])) : c = d := by
  have hlast := congrArg (fun id => id.toList.getLast?) h
  simp only [htext, htext', String.toList_append, String.toList_ofList, ← List.append_assoc,
    List.getLast?_concat, Option.some.injEq] at hlast
  exact hlast

theorem digit_ne {n : ℕ} (hn : 1 ≤ n) : Char.ofNat (48 + 0) ≠ Char.ofNat (48 + n) := by
  intro h
  have hcode := congrArg Char.toNat h
  rw [Char.ofNat, Char.ofNat, dif_pos (by decide)] at hcode
  by_cases hvalid : (48 + n).isValidChar
  · rw [dif_pos hvalid] at hcode
    change 48 = 48 + n at hcode
    omega
  · rw [dif_neg hvalid] at hcode
    exact absurd hcode (by decide)

theorem parentTree_drawsFresh : DrawsFresh sampleTreeHost parentTree "p" := by
  intro dir _ file stored hfile htext task htask
  rw [fileAt, parentTree] at hfile
  dsimp only at hfile
  split at hfile
  · cases hfile
    cases htext
    rw [List.mem_singleton.mp htask]
    rintro ⟨memberName, n, hn, hid⟩
    exact digit_ne hn (last_eq hid rfl rfl)
  · cases hfile

/-- The delegation adds its task to the one that the parent has. -/
theorem parent_with_tasks_kept :
    ParentKept sampleTreeHost (.ok (some sampleAgentsConfig)) parentTree
        (.delegate (some "p") "a" "work") ∧
      parentTree.HasFile sampleTreeHost "p" ∧
      (runCall sampleTreeHost (.ok (some sampleAgentsConfig)) parentTree
        (.delegate (some "p") "a" "work")).map (fun run => (run.2.toOption,
          (run.1.newestState sampleTreeHost "p").map fun state =>
            (state.plan, state.sessionTasks.map SessionTask.id))) =
        some (some [sampleId "a" 1],
          some (some "delegate the rest", [sampleId "b" 0, sampleId "a" 1])) := by
  have hload : parentTree.load sampleTreeHost "state" "p" =
      some (.ok { sampleParent with updatedAt := 1 }) := by decide +kernel
  have hnewest : newestFile sampleTreeHost parentTree.times "p" = some ⟨"state", "p", 0⟩ := by
    decide +kernel
  refine ⟨(parentKept_iff _ _ _ parentTree_drawsFresh).mpr fun _ _ => ?_,
    ⟨"state", List.mem_cons_self, rfl⟩, by decide +kernel⟩
  have hstart : startOf sampleTreeHost parentTree (.delegate (some "p") "a" "work") =
      some (.ok { sampleParent with updatedAt := 1 }) := by
    have hload : parentTree.load sampleTreeHost sampleTreeHost.stateDir ((some "p").getD "") = _ := hload
    rw [startOf, delegateParent, hload]
    rfl
  refine ⟨_, hstart, fun start hok _ _ => ?_⟩
  cases hok
  refine ⟨⟨_, newestState_eq_some_iff.mpr ⟨_, hnewest, hload⟩, rfl⟩, ⟨"state", "p", 1⟩, ?_⟩
  decide +kernel

/-- **The parent that cannot be parsed**: the delegation takes it for a new one and saves that over it. -/
theorem malformed_parent_is_replaced :
    ¬ ParentKept sampleTreeHost (.ok (some sampleAgentsConfig)) (treeOf .malformed)
      (.delegate (some "p") "a" "work") := by
  intro h
  have hnone : (treeOf .malformed).newestState sampleTreeHost "p" = none := by decide +kernel
  have hok : (runCall sampleTreeHost (.ok (some sampleAgentsConfig)) (treeOf .malformed)
      (.delegate (some "p") "a" "work")).map (fun run => run.2.isOk) = some true := by decide +kernel
  obtain ⟨tree', result, hrun, hresult⟩ := h ⟨"state", List.mem_cons_self, rfl⟩
  obtain ⟨⟨error, rfl⟩, -⟩ | ⟨ids, before, after, -, hbefore, -⟩ := hresult
  · rw [hrun] at hok
    cases hok
  · cases hnone.symm.trans hbefore

end StateTree

end Vexcoder.Subtask

import Vexcoder.Subtask.ParentKept

/-!
# The tree and the store

The two calls that create session tasks are modelled on the tree of state files, with the ways in which a
load or a save fails, and on the store, where a state that is saved is read back as it is.  Where the store
has what is read of the tree (`ReadAlike`), both give a call the same end: an error that leaves the files,
or the same ids with the same state saved (`delegate_alike`, `scheduleTeam_alike`).
-/

namespace Vexcoder.Subtask

open Base
open Vexcoder.Task

namespace StateTree

variable {Place : Type}

/-- The store has what a call on the parent reads of the tree. -/
structure ReadAlike (storeHost : StoreHost) (host : TreeHost Place) (store : Store)
    (tree : StateTree Place) (parentTaskId : String) : Prop where
  sameHost : host.toTaskHost = storeHost.toTaskHost
  lock : host.delegateLock = .ok ()
  tick : tree.tick = store.tick
  loaded : (tree.load host host.stateDir parentTaskId).map Except.toOption =
    some (store.load storeHost parentTaskId).toOption
  there : (tree.fileAt host host.stateDir parentTaskId).isSome =
    (store.at_ storeHost.stateDir parentTaskId).isSome
  counts : ∀ agentId, tree.liveCount host agentId = store.liveCount storeHost agentId
  permitted : ∀ id, isPermitted host (statePath host.stateDir id) = true
  saves : host.saveError tree.saves = storeHost.saveError store.saves

variable [DecidableEq Place] {storeHost : StoreHost} {host : TreeHost Place} {store : Store}
  {tree : StateTree Place} {parentTaskId : String} {α : Type}

/-- Errors that leave the files, or one result with one state that both have saved. -/
inductive EndAlike (storeHost : StoreHost) (host : TreeHost Place) (store : Store)
    (tree : StateTree Place) (rolled : List Place) :
    Store × Except String α → Option (StateTree Place × Except String α) → Prop
  | failed {store' : Store} {tree' : StateTree Place} {error error' : String}
    (hstore : store'.files = store.files) (htree : tree'.files = tree.files) :
    EndAlike storeHost host store tree rolled (store', .error error) (some (tree', .error error'))
  | saved {store' : Store} {tree' : StateTree Place} {result : α} (state : TaskState)
    (hstore : store'.files = (store.save storeHost state).1.files)
    (htree : tree'.files = filesAfter host tree state rolled) :
    EndAlike storeHost host store tree rolled (store', .ok result) (some (tree', .ok result))

omit [DecidableEq Place] in
theorem ReadAlike.stateDir_eq (h : ReadAlike storeHost host store tree parentTaskId) :
    storeHost.stateDir = host.stateDir := by
  rw [h.sameHost]

theorem ReadAlike.save (h : ReadAlike storeHost host store tree parentTaskId) (tick : ℕ)
    (state : TaskState) :
    (∃ store' tree' error, ({ store with tick } : Store).save storeHost state = (store', .error error) ∧
        ({ tree with tick } : StateTree Place).save host storeHost.stateDir state = (tree', .error error) ∧
        store'.files = store.files ∧ tree'.files = tree.files) ∨
      ∃ store' tree', ({ store with tick } : Store).save storeHost state = (store', .ok ()) ∧
        ({ tree with tick } : StateTree Place).save host storeHost.stateDir state = (tree', .ok ()) ∧
        store'.files = (store.save storeHost state).1.files ∧
        tree'.files = filesAfter host tree state [] ∧ tree'.saves = tree.saves + 1 := by
  have hpermitted := h.permitted state.id
  rw [isPermitted] at hpermitted
  rw [Store.save, Store.save, StateTree.save, h.stateDir_eq]
  rw [h.saves]
  cases henforce : enforce (statePath host.stateDir state.id) host.policyMode with
  | error error =>
    rw [henforce] at hpermitted
    cases hpermitted
  | ok permission =>
    cases storeHost.saveError store.saves with
    | some error => exact .inl ⟨_, _, error, rfl, rfl, rfl, rfl⟩
    | none =>
      refine .inr ⟨_, _, rfl, rfl, rfl, ?_, rfl⟩
      funext place
      rfl

/-! ### A delegation -/

theorem delegateFrom_alike {agentId prompt : String} {agent : AgentProfile}
    (h : ReadAlike storeHost host store tree parentTaskId) (start : TaskState) :
    EndAlike storeHost host store tree (host.rollups (tree.saves + 1))
      (match Subtask.spawn storeHost.toTaskHost parentTaskId agent agentId prompt start.sessionTasks false
          store.tick with
        | .error error => ({ store with tick := store.tick + 1 }, .error error)
        | .ok task =>
          match ({ store with tick := store.tick + 1 } : Store).save storeHost
              (start.addSessionTask task (storeHost.clock store.tick)) with
          | (store, .error error) => (store, .error error)
          | (store, .ok ()) => (store, .ok (parentTaskId, task.id)))
      (some (delegateFrom host parentTaskId agent agentId prompt tree start)) := by
  rw [delegateFrom, h.sameHost, h.tick]
  cases Subtask.spawn storeHost.toTaskHost parentTaskId agent agentId prompt start.sessionTasks false
      store.tick with
  | error error => exact .failed rfl rfl
  | ok task =>
    dsimp only
    obtain ⟨store', tree', error, hstore, htree, hfiles, hfiles'⟩ |
        ⟨store', tree', hstore, htree, hfiles, hfiles', hsaves⟩ :=
      h.save (store.tick + 1) (start.addSessionTask task (storeHost.clock store.tick))
    · rw [hstore, htree]
      exact .failed hfiles hfiles'
    · rw [hstore, htree]
      refine .saved _ hfiles ?_
      funext place
      rw [writeProjectionRollup, hsaves, filesAfter]
      dsimp only
      rw [hfiles', filesAfter, if_neg List.not_mem_nil]

/-- **A delegation ends alike** on the tree and on the store. -/
theorem delegate_alike {config : AgentsConfig} {parentId : Option String} {agentId prompt : String}
    (h : ReadAlike storeHost host store tree (parentId.getD "")) :
    EndAlike storeHost host store tree (host.rollups (tree.saves + 1))
      (Subtask.facadeDelegateSessionTask storeHost config parentId agentId prompt store)
      (tree.facadeDelegateSessionTask host (.ok (some config)) parentId agentId prompt) := by
  rw [Subtask.facadeDelegateSessionTask, StateTree.facadeDelegateSessionTask]
  cases hparent : parentId.filter fun id => !Text.isEmpty (Text.trim id) with
  | none => exact .failed rfl rfl
  | some id =>
    obtain ⟨rfl, -⟩ := Option.filter_eq_some_iff.mp hparent
    rw [Option.getD_some] at h
    dsimp only
    by_cases hlong : byteLen prompt.toList > maxDelegatePromptBytes
    · rw [if_pos hlong, if_pos hlong]
      exact .failed rfl rfl
    rw [if_neg hlong, if_neg hlong]
    cases config.agent agentId with
    | none => exact .failed rfl rfl
    | some agent =>
      rw [h.lock, h.counts]
      dsimp only
      by_cases hlive : agent.maxParallelTasks ≤ store.liveCount storeHost agentId
      · rw [if_pos hlive, if_pos hlive]
        exact .failed rfl rfl
      rw [if_neg hlive, if_neg hlive]
      obtain ⟨loaded, hloaded, hsame⟩ := Option.map_eq_some_iff.mp h.loaded
      rw [StateTree.delegateParent, hloaded, h.sameHost, h.tick]
      cases hstore : store.load storeHost id with
      | ok state =>
        rw [hstore] at hsame
        cases loaded with
        | ok state' =>
          cases hsame
          exact delegateFrom_alike h state
        | error error => cases hsame
      | error error =>
        rw [hstore] at hsame
        cases loaded with
        | ok state => cases hsame
        | error error' => exact delegateFrom_alike h (newTaskState id (storeHost.clock store.tick))

/-! ### A team -/

/-- The state that the members are added to is not the one that was loaded. -/
theorem adds_ne {start state : TaskState} {ids : List String} (h : TaskState.Adds start state ids)
    (hids : ids ≠ []) : state ≠ start := by
  rintro rfl
  obtain ⟨added, rfl, hsame⟩ := h
  have htasks : state.sessionTasks ++ added = state.sessionTasks := hsame.sessionTasks_eq
  rw [List.append_right_eq_self.mp htasks] at hids
  exact hids rfl

/-- The rest of `schedule_team`, from the same state of the parent. -/
theorem createTeam_alike {agents : List AgentProfile} {team : TeamDefinition} {prompt : String}
    {start : TaskState} (h : ReadAlike storeHost host store tree parentTaskId)
    (hmembers : team.members ≠ []) (hstart : (store.load storeHost parentTaskId).toOption.getD
      (newTaskState parentTaskId (storeHost.clock store.tick)) = start)
    (hparent : tree.teamParent host parentTaskId = some (.ok start)) :
    EndAlike storeHost host store tree []
      (onParent storeHost parentTaskId
        (Subtask.scheduleTeam storeHost.toTaskHost parentTaskId team agents prompt) store)
      (tree.scheduleTeam host parentTaskId team agents prompt) := by
  have hempty : ¬ team.members.isEmpty = true := by
    rw [List.isEmpty_iff]
    exact hmembers
  have hcases := createMembers_cases host parentTaskId prompt agents
    (decide (team.scheduler = .sequential)) (membersToCreate team) store.tick start
  rw [StateTree.scheduleTeam, if_neg hempty, hparent, Option.map_some, onParent, Subtask.scheduleTeam,
    if_neg hempty]
  rw [h.sameHost] at hcases
  dsimp only
  rw [hstart, h.sameHost, h.tick]
  obtain ⟨tick, error, hrun, -⟩ | ⟨tick, state, ids, hrun, -, hadds, hlength, -⟩ := hcases
  · rw [hrun]
    exact .failed rfl rfl
  · rw [hrun]
    have hids : ids ≠ [] := by
      rw [← List.length_pos_iff, hlength]
      exact List.length_pos_iff.mpr (membersToCreate_ne_nil hmembers)
    have hnew : some state ≠ (store.load storeHost parentTaskId).toOption := by
      intro heq
      rw [← heq] at hstart
      exact adds_ne hadds hids hstart
    dsimp only
    rw [if_neg hnew]
    obtain ⟨store', tree', error, hstore, htree, hfiles, hfiles'⟩ |
        ⟨store', tree', hstore, htree, hfiles, hfiles', -⟩ := h.save tick state
    · rw [hstore, htree]
      exact .failed hfiles hfiles'
    · rw [hstore, htree]
      exact .saved state hfiles hfiles'

/-- **`schedule_team` ends alike** on the tree and on the store. -/
theorem scheduleTeam_alike {config : AgentsConfig} {team : TeamDefinition} {prompt : String}
    (h : ReadAlike storeHost host store tree parentTaskId) :
    EndAlike storeHost host store tree []
      (scheduleTeamIn storeHost config parentTaskId team prompt store)
      (tree.scheduleTeam host parentTaskId team config.profiles prompt) := by
  have hthere := h.there
  have hloaded := h.loaded
  rw [scheduleTeamIn]
  by_cases hmembers : team.members = []
  · -- both give an error, of the file or of the team
    rw [StateTree.scheduleTeam, hmembers]
    split
    · exact .failed rfl rfl
    · rw [onParent, Subtask.scheduleTeam, hmembers]
      exact .failed rfl rfl
  have hparent : tree.teamParent host parentTaskId = if (store.at_ storeHost.stateDir parentTaskId).isSome
      then tree.load host host.stateDir parentTaskId
      else some (.ok (newTaskState parentTaskId (storeHost.clock store.tick))) := by
    rw [teamParent, hthere, h.sameHost, h.tick]
  rw [Store.load] at hloaded
  cases hat : store.at_ storeHost.stateDir parentTaskId with
  | none =>
    rw [hat] at hparent
    refine createTeam_alike h hmembers ?_ hparent
    rw [Store.load, hat]
    rfl
  | some stored =>
    rw [hat, Option.isSome_some, if_pos rfl] at hparent
    rw [hat, Option.bind_some] at hloaded
    rw [Option.any_some]
    obtain ⟨loaded, hload, hsame⟩ := Option.map_eq_some_iff.mp hloaded
    cases hstate : stored.state with
    | none =>
      rw [hstate] at hsame
      cases loaded with
      | ok state => cases hsame
      | error error =>
        rw [Option.isNone_none, if_pos rfl, StateTree.scheduleTeam,
          if_neg (by rw [List.isEmpty_iff]; exact hmembers), hparent, hload]
        exact .failed rfl rfl
    | some state =>
      rw [hstate] at hsame
      cases loaded with
      | error error => cases hsame
      | ok state' =>
        cases hsame
        refine createTeam_alike h hmembers ?_ (hparent.trans hload)
        rw [Store.load, hat, Option.bind_some, hstate]
        rfl

end StateTree

end Vexcoder.Subtask

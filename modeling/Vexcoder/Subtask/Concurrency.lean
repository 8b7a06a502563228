import Mathlib.Algebra.Order.BigOperators.Group.List
import Mathlib.Data.List.Flatten
import Mathlib.Data.List.Perm.Subperm
import Vexcoder.Subtask.Sequential
import Vexcoder.Subtask.TaskStore

/-!
# The limit of an agent's session tasks

An agent may have `max_parallel_tasks` live session tasks over all stored states.  The calls that create
tasks count what the listing shows them, so the limit holds as long as it shows every live task of the
agent; and where the code does not count at all, in `advance_sequential`, as long as there is room.
-/

namespace Vexcoder.Subtask

open Base Lib
open Vexcoder.Task

/-! ### Live tasks -/

def isLiveTaskOf (agentId : String) (task : SessionTask) : Bool := isLiveOf agentId task.summary

def liveIn (agentId : String) (tasks : List SessionTask) : ℕ := tasks.countP (isLiveTaskOf agentId)

def Store.live (store : Store) (agentId : String) : ℕ :=
  liveIn agentId (store.files.flatMap StoredFile.tasks)

def WithinLimit (config : AgentsConfig) (store : Store) : Prop :=
  ∀ agent ∈ config.agentProfiles, store.live agent.name ≤ agent.maxParallelTasks

/-- Each stored state with a live task of the agent is listed, and its header shows them. -/
def Shown (host : StoreHost) (store : Store) (agentId : String) : Prop :=
  ∀ stored ∈ store.files, liveIn agentId stored.tasks ≠ 0 →
    stored.file ∈ store.listed host ∧ liveIn agentId stored.tasks ≤ stored.summaries.countP (isLiveOf agentId)

def HasRoom (config : AgentsConfig) (store : Store) (agentId : String) : Prop :=
  ∀ agent ∈ config.agentProfiles, agent.name = agentId → store.live agentId < agent.maxParallelTasks

/-- What the file of the parent holds is the state of the parent. -/
def LoadsAs (host : StoreHost) (store : Store) (parentTaskId : String) : Prop :=
  ∀ state ∈ (store.load host parentTaskId).toOption, state.id = parentTaskId

/-- A state that has the session task stands where a save puts it. -/
def InPlace (host : StoreHost) (store : Store) (sessionTaskId : String) : Prop :=
  ∀ stored ∈ store.files, ∀ state ∈ stored.state,
    (state.sessionTask sessionTaskId).isSome → stored.place = (host.stateDir, state.id)

/-! ### Calls -/

inductive Call where
  | delegate (parentTaskId : Option String) (agentId prompt : String)
  | scheduleTeam (parentTaskId teamName prompt : String)
  | advanceSequential (parentTaskId : String) (team : TeamDefinition) (prompt : String)
  | updateStatus (sessionTaskId status : String)
  | release (sessionTaskId : String)

def storeStep (host : StoreHost) (config : AgentsConfig) (store : Store) : Call → Store
  | .delegate parentTaskId agentId prompt =>
    (facadeDelegateSessionTask host config parentTaskId agentId prompt store).1
  | .scheduleTeam parentTaskId teamName prompt =>
    (facadeScheduleTeam host config parentTaskId teamName prompt store).1
  | .advanceSequential parentTaskId team prompt =>
    (advanceSequentialIn host config parentTaskId team prompt store).1
  | .updateStatus sessionTaskId status =>
    (facadeUpdateSessionTaskStatus host sessionTaskId status store).1
  | .release sessionTaskId => (facadeReleaseSessionTask host sessionTaskId store).1

def storeRun (host : StoreHost) (config : AgentsConfig) (store : Store) (calls : List Call) : Store :=
  calls.foldl (storeStep host config) store

/-- An agent that the call may give a task has room or is counted in full, what is loaded is saved in its
place, and the member whose turn it is has room. -/
def InView (host : StoreHost) (config : AgentsConfig) (store : Store) : Call → Prop
  | .delegate parentTaskId agentId _ =>
    (HasRoom config store agentId ∨ Shown host store agentId) ∧ ∀ id ∈ parentTaskId, LoadsAs host store id
  | .scheduleTeam parentTaskId teamName _ =>
    (∀ team ∈ config.teamDefinitions, team.name = teamName → ∀ member ∈ membersToCreate team,
      HasRoom config store member ∨ Shown host store member) ∧ LoadsAs host store parentTaskId
  | .advanceSequential parentTaskId team _ =>
    ∀ state ∈ (store.load host parentTaskId).toOption,
      ∀ member ∈ nextMember state.sessionTasks team.members,
        HasRoom config store member ∧ state.id = parentTaskId
  | .updateStatus sessionTaskId _ => InPlace host store sessionTaskId
  | .release sessionTaskId => InPlace host store sessionTaskId

variable {host : StoreHost} {config : AgentsConfig} {store : Store}

instance (agentId : String) : Decidable (HasRoom config store agentId) :=
  List.decidableBAll _ config.agentProfiles

instance (agentId : String) : Decidable (Shown host store agentId) :=
  List.decidableBAll _ store.files

instance (id : String) : Decidable (LoadsAs host store id) :=
  inferInstanceAs (Decidable (∀ state ∈ (store.load host id).toOption, state.id = id))

instance (id : String) : Decidable (InPlace host store id) :=
  List.decidableBAll _ store.files

instance (call : Call) : Decidable (InView host config store call) :=
  match call with
  | .delegate .. => inferInstanceAs (Decidable (_ ∧ _))
  | .scheduleTeam .. => inferInstanceAs (Decidable (_ ∧ _))
  | .advanceSequential .. => inferInstanceAs (Decidable (∀ state ∈ Except.toOption _, _))
  | .updateStatus id _ => inferInstanceAs (Decidable (InPlace host store id))
  | .release id => inferInstanceAs (Decidable (InPlace host store id))

def AllInView (host : StoreHost) (config : AgentsConfig) (store : Store) : List Call → Prop
  | [] => True
  | call :: calls =>
    InView host config store call ∧ AllInView host config (storeStep host config store call) calls

instance AllInView.decide (store : Store) (calls : List Call) :
    Decidable (AllInView host config store calls) :=
  match calls with
  | [] => .isTrue trivial
  | call :: calls =>
    have := AllInView.decide (storeStep host config store call) calls
    inferInstanceAs (Decidable (_ ∧ _))

/-! ### Counting over files -/

section Lists

variable {α β : Type} {l l' : List α} {f : α → List β} {p : β → Bool} {q : α → Bool}

theorem countP_flatMap_split (l : List α) (f : α → List β) (p : β → Bool) (q : α → Bool) :
    (l.flatMap f).countP p = ((l.filter q).flatMap f).countP p +
      ((l.filter fun a => !q a).flatMap f).countP p := by
  rw [← List.countP_append, ← List.flatMap_append]
  exact (((List.filter_append_perm q l).flatMap_right f).countP_eq p).symm

theorem countP_flatMap_subperm (h : l.Subperm l') : (l.flatMap f).countP p ≤ (l'.flatMap f).countP p := by
  obtain ⟨l₁, perm, sublist⟩ := h
  rw [← (perm.flatMap_right f).countP_eq p]
  exact (List.Sublist.flatMap sublist f).countP_le

theorem countP_flatMap_mem {a : α} (h : a ∈ l) : (f a).countP p ≤ (l.flatMap f).countP p := by
  have single : (f a).countP p = ([a].flatMap f).countP p := by
    rw [List.flatMap_singleton]
  rw [single]
  exact countP_flatMap_subperm (List.singleton_subperm_iff.mpr h)

theorem countP_flatMap_mono {γ : Type} {g : α → List γ} {p' : γ → Bool}
    (h : ∀ a ∈ l, (f a).countP p ≤ (g a).countP p') :
    (l.flatMap f).countP p ≤ (l.flatMap g).countP p' := by
  rw [List.countP_flatMap, List.countP_flatMap]
  exact List.sum_le_sum h

end Lists

theorem at_of_mem {store : Store} {stored : StoredFile} (mem : stored ∈ store.files) :
    store.at_ stored.dir stored.id = some stored := by
  rw [Store.at_]
  cases found : store.files.find? (StoredFile.isAt stored.dir stored.id) with
  | none =>
    have elsewhere := List.find?_eq_none.mp found stored mem
    exact absurd (decide_eq_true (rfl : stored.place = stored.place)) elsewhere
  | some other =>
    have here : StoredFile.isAt stored.dir stored.id other = true := List.find?_some found
    have same : other.place = stored.place := of_decide_eq_true here
    rw [List.inj_on_of_nodup_map store.places (List.mem_of_find?_eq_some found) mem same]

theorem liveCount_eq (host : StoreHost) (store : Store) (agentId : String) :
    store.liveCount host agentId =
      ((store.listed host).flatMap store.listedSummaries).countP (isLiveOf agentId) := by
  have hempty : Assoc.find? agentId ([] : List (String × ℕ)) ≠ some 0 := fun hzero => nomatch hzero
  have counted := (countLive_foldl agentId ((store.listed host).flatMap store.listedSummaries) hempty).1
  rw [Store.liveCount, Store.liveCounts, counted]
  exact Nat.zero_add _

theorem file_nodup (store : Store) : (store.files.map StoredFile.file).Nodup := by
  refine List.Nodup.of_map (fun file : TaskStateFile => (file.dir, file.id)) ?_
  rw [List.map_map]
  exact store.places

variable {agentId : String} {store' : Store} {id : String} {state : TaskState}
  {parentTaskId prompt : String} {team : TeamDefinition} {sessionTaskId : String}

/-- **What is shown is counted.** -/
theorem live_le_liveCount {host : StoreHost} {store : Store} (shown : Shown host store agentId) :
    store.live agentId ≤ store.liveCount host agentId := by
  let atWork (stored : StoredFile) : Bool := liveIn agentId stored.tasks ≠ 0
  have idle : liveIn agentId ((store.files.filter fun stored => !atWork stored).flatMap
      StoredFile.tasks) = 0 := by
    rw [liveIn, List.countP_flatMap]
    refine List.sum_eq_zero fun n mem => ?_
    obtain ⟨stored, hstored, rfl⟩ := List.mem_map.mp mem
    have still := (List.mem_filter.mp hstored).2
    exact not_not.mp (of_decide_eq_false (Bool.not_eq_true' _ ▸ still))
  have files : ((store.files.filter atWork).map StoredFile.file).Subperm (store.listed host) := by
    refine List.Nodup.subperm ((List.filter_sublist.map StoredFile.file).nodup (file_nodup store))
      fun file mem => ?_
    obtain ⟨stored, hstored, rfl⟩ := List.mem_map.mp mem
    obtain ⟨mem, busy⟩ := List.mem_filter.mp hstored
    exact (shown stored mem (of_decide_eq_true busy)).1
  calc store.live agentId
      = liveIn agentId ((store.files.filter atWork).flatMap StoredFile.tasks) := by
        rw [Store.live, liveIn, countP_flatMap_split store.files StoredFile.tasks _ atWork]
        exact congrArg _ idle
    _ ≤ ((store.files.filter atWork).flatMap
          fun stored => store.listedSummaries stored.file).countP (isLiveOf agentId) := by
        refine countP_flatMap_mono fun stored hstored => ?_
        obtain ⟨mem, busy⟩ := List.mem_filter.mp hstored
        have seen : store.listedSummaries stored.file = stored.summaries := by
          rw [Store.listedSummaries]
          dsimp only [StoredFile.file]
          rw [at_of_mem mem]
        rw [seen]
        exact (shown stored mem (of_decide_eq_true busy)).2
    _ ≤ ((store.listed host).flatMap store.listedSummaries).countP (isLiveOf agentId) := by
        rw [← List.flatMap_map]
        exact countP_flatMap_subperm files
    _ = store.liveCount host agentId := (liveCount_eq host store agentId).symm

/-! ### A save -/

def Store.liveAt (host : StoreHost) (store : Store) (id agentId : String) : ℕ :=
  liveIn agentId (store.tasksAt host id)

theorem live_split (host : StoreHost) (store : Store) (id agentId : String) :
    store.liveAt host id agentId + liveIn agentId ((store.others host id).flatMap StoredFile.tasks) ≤
      store.live agentId := by
  rw [Store.live, liveIn, liveIn, countP_flatMap_split store.files _ _
    (StoredFile.isAt host.stateDir id)]
  refine Nat.add_le_add_right ?_ _
  rw [Store.liveAt, Store.tasksAt]
  cases found : store.at_ host.stateDir id with
  | none => exact Nat.zero_le _
  | some stored =>
    have mem : stored ∈ store.files.filter (StoredFile.isAt host.stateDir id) :=
      List.mem_filter.mpr ⟨List.mem_of_find?_eq_some found, List.find?_some found⟩
    have counted := countP_flatMap_mem (f := StoredFile.tasks) (p := isLiveTaskOf agentId) mem
    exact counted

/-- **What a save adds is what the saved state has more than the file that it replaces.** -/
theorem save_live {state : TaskState} {agentId : String} {n : ℕ}
    (h : liveIn agentId state.sessionTasks ≤ store.liveAt host state.id agentId + n) :
    (store.save host state).1.live agentId ≤ store.live agentId + n := by
  rw [Store.save]
  split
  · exact Nat.le_add_right _ _
  have before := live_split host store state.id agentId
  dsimp only [Store.live, liveIn] at before ⊢
  rw [((host.arrange_perm _ _).flatMap_right StoredFile.tasks).countP_eq,
    List.flatMap_append, List.countP_append, List.flatMap_singleton]
  have added : (Store.savedFile host state store.saves).tasks.countP (isLiveTaskOf agentId) ≤
      store.liveAt host state.id agentId + n := h
  omega

/-! ### What the calls add -/

/-- The live tasks of each agent are at most so many more as it is named. -/
def AddsAtMost (agentIds : List String) (store store' : Store) : Prop :=
  ∀ agentId, store'.live agentId ≤ store.live agentId + agentIds.count agentId

theorem AddsAtMost.of_files (h : store'.files = store.files) (agentIds : List String) :
    AddsAtMost agentIds store store' := by
  intro agentId
  rw [Store.live, h]
  exact Nat.le_add_right _ _

theorem liveIn_append_single (agentId : String) (tasks : List SessionTask) (task : SessionTask) :
    liveIn agentId (tasks ++ [task]) ≤ liveIn agentId tasks + [task.agentId].count agentId := by
  rw [liveIn, List.countP_append, List.countP_singleton, List.count_singleton]
  refine Nat.add_le_add_left ?_ _
  split
  · rename_i live
    have own : task.agentId == agentId := ((Bool.and_eq_true _ _).mp live).2
    rw [if_pos own]
  · exact Nat.zero_le _

theorem liveIn_kept {tasks tasks' : List SessionTask} (h : List.Forall₂ Kept tasks tasks') :
    liveIn agentId tasks' ≤ liveIn agentId tasks := by
  induction h with
  | nil => exact Nat.le_refl _
  | @cons task task' tasks tasks' kept _ ih =>
    rw [liveIn, liveIn, List.countP_cons, List.countP_cons]
    refine Nat.add_le_add ih ?_
    split
    · rename_i live
      obtain ⟨alive, own⟩ := (Bool.and_eq_true _ _).mp live
      have before : isLiveTaskOf agentId task = true := by
        refine (Bool.and_eq_true _ _).mpr ⟨?_, (congrArg (· == agentId) kept.1).symm.trans own⟩
        by_contra ended
        have ended' : Terminal task' := kept.2 (Bool.eq_false_iff.mpr ended)
        exact Bool.false_ne_true (ended'.symm.trans alive)
      rw [if_pos before]
    · exact Nat.zero_le _

theorem load_tasksAt (h : store.load host id = .ok state) : store.tasksAt host id = state.sessionTasks := by
  rw [Store.load] at h
  split at h
  · rename_i state' loaded
    obtain ⟨stored, found, hstate⟩ := Option.bind_eq_some_iff.mp loaded
    cases h
    rw [Store.tasksAt, found, Option.elim_some, StoredFile.tasks, hstate]
  · cases h

theorem load_error_tasksAt {error : String} (h : store.load host id = .error error) :
    store.tasksAt host id = [] := by
  rw [Store.load] at h
  split at h
  · cases h
  rename_i loaded
  rw [Store.tasksAt]
  cases found : store.at_ host.stateDir id with
  | none => rfl
  | some stored =>
    rw [found, Option.bind_some] at loaded
    rw [Option.elim_some, StoredFile.tasks, loaded]

theorem load_liveAt (h : store.load host id = .ok state) :
    store.liveAt host id agentId = liveIn agentId state.sessionTasks :=
  congrArg (liveIn agentId) (load_tasksAt h)

/-- The state of the parent as it is loaded, or the new one, has no more live tasks than the file. -/
theorem loadedOrNew_spec (id : String) (now : ℕ) (loads : LoadsAs host store id) :
    let state := match store.load host id with
      | .ok state => state
      | .error _ => newTaskState id now
    state.id = id ∧ ∀ agentId, liveIn agentId state.sessionTasks ≤ store.liveAt host id agentId := by
  cases loaded : store.load host id with
  | ok state => exact ⟨loads state (by rw [loaded]; rfl), fun _ => (load_liveAt loaded).ge⟩
  | error _ => exact ⟨rfl, fun _ => Nat.zero_le _⟩

theorem delegated_live {id agentId prompt : String} {agent : AgentProfile} {sequential : Bool}
    {tick : ℕ} {state : TaskState} {task : SessionTask} (now : ℕ)
    (spawned : spawn host.toTaskHost id agent agentId prompt state.sessionTasks sequential tick = .ok task)
    (h : state.id = id ∧ ∀ other, liveIn other state.sessionTasks ≤ store.liveAt host id other) :
    AddsAtMost [agentId] store
      ({ store with tick := tick + 1 }.save host (state.addSessionTask task now)).1 := by
  intro other
  have added := liveIn_append_single other state.sessionTasks task
  rw [(spawn_spec spawned).2.1] at added
  obtain ⟨rfl, before⟩ := h
  exact @save_live host { store with tick := tick + 1 } (state.addSessionTask task now) other
    ([agentId].count other) (added.trans (Nat.add_le_add_right (before other) _))

theorem delegate_adds {parentTaskId : Option String} {agentId prompt : String}
    (loads : ∀ id ∈ parentTaskId, LoadsAs host store id) :
    let store' := (facadeDelegateSessionTask host config parentTaskId agentId prompt store).1
    store'.files = store.files ∨ AddsAtMost [agentId] store store' ∧
      ∃ agent, config.agent agentId = some agent ∧ store.liveCount host agentId < agent.maxParallelTasks := by
  rw [facadeDelegateSessionTask]
  split
  · exact .inl rfl
  rename_i id named
  have loadsId := loads id (Option.filter_eq_some_iff.mp named).1
  split
  · exact .inl rfl
  split
  · exact .inl rfl
  rename_i agent found
  split
  · exact .inl rfl
  rename_i free
  dsimp only
  split
  · exact .inl rfl
  rename_i task spawned
  refine .inr ⟨fun other => ?_, agent, found, Nat.lt_of_not_le free⟩
  have saved := delegated_live (host.clock store.tick) spawned
    (loadedOrNew_spec id (host.clock store.tick) loadsId)
  split
  all_goals
    rename_i after
    exact (congrArg (fun result => result.1.live other) after).ge.trans (saved other)

/-- **An operation on the files of a parent adds the tasks it adds to the state.** -/
theorem onParent_adds {α : Type} {parentTaskId : String} {op : System → System × Except String α}
    {agentIds : List String}
    (h : ∀ s', ∀ a, op { files := { state := (store.load host parentTaskId).toOption }
                         tick := store.tick } = (s', .ok a) →
      s'.files.state = (store.load host parentTaskId).toOption ∨
        ∃ state, s'.files.state = some state ∧ ∀ agentId, liveIn agentId state.sessionTasks ≤
          store.liveAt host state.id agentId + agentIds.count agentId) :
    AddsAtMost agentIds store (onParent host parentTaskId op store).1 := by
  rw [onParent]
  split
  · exact .of_files rfl _
  rename_i s' a done
  split
  · exact .of_files rfl _
  rename_i changed
  rcases h s' a done with same | ⟨state, hstate, added⟩
  · exact absurd same changed
  rw [hstate]
  intro agentId
  have saved := @save_live host { store with tick := s'.tick } state agentId
    (agentIds.count agentId) (added agentId)
  dsimp only
  split
  all_goals
    rename_i after
    exact (congrArg (fun result => result.1.live agentId) after).ge.trans saved

theorem createMembers_spec {agents : List AgentProfile} {sequential : Bool} {members : List String}
    {tick tick' : ℕ} {state' : TaskState} {ids : List String}
    (h : createMembers host.toTaskHost parentTaskId agents prompt sequential members tick state =
      (tick', .ok (state', ids))) :
    state'.id = state.id ∧ ∀ agentId, liveIn agentId state'.sessionTasks ≤
      liveIn agentId state.sessionTasks + members.count agentId := by
  induction members generalizing tick state ids with
  | nil =>
    cases h
    exact ⟨rfl, fun _ => Nat.le_add_right _ _⟩
  | cons memberName members ih =>
    rw [createMembers] at h
    split at h
    · cases h
    split at h
    · cases h
    rename_i task spawned
    split at h
    · cases h
    rename_i rest
    cases h
    obtain ⟨hid, added⟩ := ih rest
    refine ⟨hid, fun agentId => ?_⟩
    have one := liveIn_append_single agentId state.sessionTasks task
    rw [(spawn_spec spawned).2.1] at one
    have more := added agentId
    rw [List.count_cons]
    rw [List.count_singleton] at one
    dsimp only [TaskState.addSessionTask] at more
    omega

theorem toOption_eq_some {α ε : Type} {result : Except ε α} {a : α}
    (h : result.toOption = some a) : result = .ok a := by
  cases result with
  | ok => exact congrArg _ (Option.some.inj h)
  | error => cases h

theorem scheduleTeamIn_adds (loads : LoadsAs host store parentTaskId) :
    AddsAtMost (membersToCreate team) store
      (scheduleTeamIn host config parentTaskId team prompt store).1 := by
  rw [scheduleTeamIn]
  split
  · exact .of_files rfl _
  refine onParent_adds fun s' a done => .inr ?_
  rw [scheduleTeam] at done
  split at done
  · cases done
  dsimp only at done
  split at done
  · cases done
  rename_i created
  cases done
  obtain ⟨hid, added⟩ := createMembers_spec created
  refine ⟨_, rfl, fun agentId => (added agentId).trans (Nat.add_le_add_right ?_ _)⟩
  rw [hid]
  cases loaded : (store.load host parentTaskId).toOption with
  | none => exact Nat.zero_le _
  | some state =>
    rw [Option.getD_some, loads state loaded, load_liveAt (toOption_eq_some loaded)]

def Store.nextIn (host : StoreHost) (store : Store) (parentTaskId : String) (team : TeamDefinition) :
    Option String :=
  (store.load host parentTaskId).toOption.bind fun state =>
    nextMember state.sessionTasks team.members

theorem advanceSequentialIn_adds (h : ∀ state ∈ (store.load host parentTaskId).toOption,
      ∀ member ∈ nextMember state.sessionTasks team.members, state.id = parentTaskId) :
    AddsAtMost (store.nextIn host parentTaskId team).toList store
      (advanceSequentialIn host config parentTaskId team prompt store).1 := by
  refine onParent_adds fun s' a done => ?_
  rw [advanceSequential, loadParent] at done
  rw [Store.nextIn]
  cases loaded : (store.load host parentTaskId).toOption with
  | none =>
    rw [loaded] at done
    cases done
  | some state =>
    have ok := toOption_eq_some loaded
    rw [loaded] at done
    dsimp only at done
    split at done
    · cases done
      exact .inl rfl
    rename_i member next
    rw [Option.bind_some, next]
    split at done
    · cases done
    split at done
    · cases done
    rename_i task spawned
    cases done
    refine .inr ⟨_, rfl, fun agentId => ?_⟩
    have added := liveIn_append_single agentId state.sessionTasks task
    rw [(spawn_spec spawned).2.1, ← load_liveAt ok, ← h state loaded member next] at added
    exact added

theorem findListed_mem {files : List TaskStateFile} {task : SessionTask}
    (h : store.findListed sessionTaskId files = .ok (some (state, task))) :
    (∃ stored ∈ store.files, stored.state = some state) ∧ state.sessionTask sessionTaskId = some task := by
  induction files with
  | nil => cases h
  | cons file rest ih =>
    rw [Store.findListed] at h
    split at h
    · exact ih h
    split at h
    · exact ih h
    split at h
    · cases h
    rename_i state' loaded
    split at h
    · rename_i task' found
      cases h
      obtain ⟨stored, at_, hstate⟩ := Option.bind_eq_some_iff.mp loaded
      exact ⟨⟨stored, List.mem_of_find?_eq_some at_, hstate⟩, found⟩
    · exact ih h

/-- **A change of a live task that stands in its place adds nothing.** -/
theorem change_adds {task : SessionTask} (status : SessionTaskStatus) (now : ℕ)
    (inPlace : InPlace host store sessionTaskId)
    (found : store.findSessionTask host sessionTaskId = .ok (some (state, task)))
    (live : task.lifecycleState.isLive = true) :
    AddsAtMost [] store (store.save host (updateStatus state sessionTaskId status now)).1 := by
  intro agentId
  obtain ⟨⟨stored, mem, hstate⟩, hfirst⟩ := findListed_mem found
  have place := inPlace stored mem state hstate (by rw [hfirst]; rfl)
  have held : store.liveAt host state.id agentId = liveIn agentId state.sessionTasks := by
    obtain ⟨hdir, hid⟩ := Prod.mk.inj place
    rw [Store.liveAt, Store.tasksAt, ← hdir, ← hid, at_of_mem mem, Option.elim_some, StoredFile.tasks, hstate]
  refine save_live (le_trans (@liveIn_kept _ state.sessionTasks _ ?_) held.ge)
  refine forall₂_modify Kept.refl fun task' at_ => ⟨rfl, fun ended => ?_⟩
  rw [← List.find?_eq_getElem?_findIdx] at at_
  obtain rfl := Option.some.inj (hfirst.symm.trans at_)
  exact absurd (live.symm.trans ended) Bool.false_ne_true.symm

theorem update_adds {status : String} (inPlace : InPlace host store sessionTaskId) :
    AddsAtMost [] store (facadeUpdateSessionTaskStatus host sessionTaskId status store).1 := by
  rw [facadeUpdateSessionTaskStatus]
  split
  · exact .of_files rfl _
  split
  · exact .of_files rfl _
  · exact .of_files rfl _
  · rename_i state task found
    split
    · exact .of_files rfl _
    · rename_i live
      exact change_adds _ _ inPlace found (by simpa using live)

theorem release_adds (inPlace : InPlace host store sessionTaskId) :
    AddsAtMost [] store (facadeReleaseSessionTask host sessionTaskId store).1 := by
  rw [facadeReleaseSessionTask]
  split
  · exact .of_files rfl _
  · exact .of_files rfl _
  · rename_i state task found
    split
    · exact .of_files rfl _
    rename_i live
    have adds := change_adds .completed (host.clock store.tick) inPlace found (by simpa using live)
    split
    all_goals
      rename_i after
      exact fun agentId =>
        (congrArg (fun result => result.1.live agentId) after).ge.trans (adds agentId)

/-! ### Runs -/

theorem hasRoom_of_counted {agent : AgentSettings} (valid : ValidConfig config)
    (found : config.agent agentId = some agent) (free : store.liveCount host agentId < agent.maxParallelTasks)
    (h : HasRoom config store agentId ∨ Shown host store agentId) :
    HasRoom config store agentId := by
  rcases h with room | shown
  · exact room
  intro agent' mem named
  have own := List.find?_some found
  rw [decide_eq_true_eq] at own
  have same := List.inj_on_of_nodup_map valid.agentsDiffer mem (List.mem_of_find?_eq_some found)
    (named.trans own.symm)
  rw [same]
  exact lt_of_le_of_lt (live_le_liveCount shown) free

theorem checkMembers_spec {teamName : String} {members : List String} {u : Unit}
    (h : checkMembers host config store teamName members = .ok u) :
    ∀ member ∈ members, ∃ agent, config.agent member = some agent ∧
      store.liveCount host member < agent.maxParallelTasks := by
  induction members with
  | nil => exact nofun
  | cons member members ih =>
    rw [checkMembers] at h
    split at h
    · cases h
    rename_i agent found
    split at h
    · cases h
    rename_i free
    exact List.forall_mem_cons.mpr ⟨⟨agent, found, Nat.lt_of_not_le free⟩, ih h⟩

theorem withinLimit_of_adds {agentIds : List String} (h : WithinLimit config store)
    (differ : agentIds.Nodup) (room : ∀ agentId ∈ agentIds, HasRoom config store agentId)
    (adds : AddsAtMost agentIds store store') : WithinLimit config store' := by
  intro agent mem
  refine (adds agent.name).trans ?_
  by_cases new : agent.name ∈ agentIds
  · rw [List.count_eq_one_of_mem differ new]
    exact room agent.name new agent mem rfl
  · rw [List.count_eq_zero_of_not_mem new]
    exact h agent mem

theorem withinLimit_of_files (h : WithinLimit config store) (same : store'.files = store.files) :
    WithinLimit config store' :=
  withinLimit_of_adds h List.nodup_nil nofun (.of_files same [])

theorem membersToCreate_nodup (h : team.members.Nodup) : (membersToCreate team).Nodup := by
  rw [membersToCreate]
  cases team.scheduler with
  | fanOutJoin => exact h
  | sequential => exact (List.take_sublist 1 _).nodup h

theorem storeStep_withinLimit {call : Call} (valid : ValidConfig config)
    (h : WithinLimit config store) (inView : InView host config store call) :
    WithinLimit config (storeStep host config store call) := by
  cases call with
  | delegate parentTaskId agentId prompt =>
    obtain ⟨counted, loads⟩ := inView
    rcases @delegate_adds _ config _ _ agentId prompt loads with
      same | ⟨adds, agent, found, free⟩
    · exact withinLimit_of_files h same
    · refine withinLimit_of_adds h (List.nodup_singleton agentId) ?_ adds
      intro other mem
      rw [List.mem_singleton.mp mem]
      exact hasRoom_of_counted valid found free counted
  | scheduleTeam parentTaskId teamName prompt =>
    obtain ⟨counted, loads⟩ := inView
    rw [storeStep, facadeScheduleTeam]
    split
    · exact h
    split
    · exact h
    split
    · exact h
    split
    · exact h
    rename_i team found
    have mem := List.mem_of_find?_eq_some found
    have named := List.find?_some found
    rw [decide_eq_true_eq] at named
    split
    · exact h
    rename_i checked
    refine withinLimit_of_adds h (membersToCreate_nodup (valid.membersDiffer team mem)) ?_
      (scheduleTeamIn_adds loads)
    intro member hmember
    obtain ⟨agent, found, free⟩ := checkMembers_spec checked member hmember
    exact hasRoom_of_counted valid found free (counted team mem named member hmember)
  | advanceSequential parentTaskId team prompt =>
    have room : ∀ member ∈ (store.nextIn host parentTaskId team).toList,
        HasRoom config store member := by
      intro member mem
      obtain ⟨state, loaded, next⟩ := Option.bind_eq_some_iff.mp (Option.mem_toList.mp mem)
      exact (inView state loaded member next).1
    refine withinLimit_of_adds h ?_ room
      (advanceSequentialIn_adds fun state loaded member next => (inView state loaded member next).2)
    cases store.nextIn host parentTaskId team with
    | none => exact List.nodup_nil
    | some member => exact List.nodup_singleton member
  | updateStatus sessionTaskId status =>
    exact withinLimit_of_adds h List.nodup_nil nofun (update_adds inView)
  | release sessionTaskId =>
    exact withinLimit_of_adds h List.nodup_nil nofun (release_adds inView)

theorem storeRun_withinLimit {calls : List Call} (valid : ValidConfig config)
    (h : WithinLimit config store) (inView : AllInView host config store calls) :
    WithinLimit config (storeRun host config store calls) := by
  induction calls generalizing store with
  | nil => exact h
  | cons call calls ih => exact ih (storeStep_withinLimit valid h inView.1) inView.2

theorem AllInView.take {calls : List Call} (h : AllInView host config store calls) (n : ℕ) :
    AllInView host config store (calls.take n) := by
  induction calls generalizing store n with
  | nil =>
    rw [List.take_nil]
    exact h
  | cons call calls ih =>
    cases n with
    | zero => exact trivial
    | succ n => exact ⟨h.1, ih h.2 n⟩

def sampleStoreHost : StoreHost :=
  { sampleHost with
    modifiedMillis := fun n => n
    arrange := fun _ files => files
    arrange_perm := fun _ _ => .refl _
    saveError := fun _ => none
    releaseLease := fun _ => .ok ()
    maxScans := 200 }

/-- Agents `a` and `b` may have one task each. -/
def sampleConfig : AgentsConfig :=
  { agentProfiles := [{ name := "a", isolation := .shared }, { name := "b" }]
    teamDefinitions := [sampleTeam] }

def emptyStore : Store := { files := [], places := List.nodup_nil }

instance : Decidable (WithinLimit config store) := List.decidableBAll _ config.agentProfiles

end Vexcoder.Subtask

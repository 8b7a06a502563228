import Vexcoder.Subtask.ParentKept

/-!
# The worktree leases of a team

`schedule_team` leases the worktrees of the members one after the other, each lease is a file of its own,
and the parent is saved behind the last one.  No lease is given back when a later member is no agent, has
no worktree, or the parent is not saved.
-/

namespace Vexcoder.Subtask

open Base
open Vexcoder.Task

structure WorktreeLease where
  taskId : String
  parentTaskId : Option String
  path : String
  acquiredAt : ℕ

/-- What the system gives when a worktree is leased. -/
structure LeaseHost (Place : Type) where
  base : TreeHost Place
  /-- `create_dir_all` fails for the path. -/
  createFails : String → Bool
  /-- `git worktree add` makes the worktree at the path. -/
  gitAdds : String → Bool
  /-- The error of the file of the lease of a session task. -/
  writeError : String → Option String

/-- `Path::join` -/
def joinPath (dir name : String) : String :=
  if Text.startsWith name "/" then name else dir ++ "/" ++ name

namespace LeaseHost

variable {Place : Type} (host : LeaseHost Place)

def leaseRoot : String := host.base.stateDir ++ "/worktrees"

def metadataRoot : String := host.base.stateDir ++ "/worktree-leases"

/-- The path of the lease, when all goes well up to the file of the lease. -/
def acquire (taskId : String) : Except String String :=
  let path := joinPath host.leaseRoot taskId
  if host.createFails host.leaseRoot then .error ("failed to create " ++ host.leaseRoot)
  else if host.createFails host.metadataRoot then .error ("failed to create " ++ host.metadataRoot)
  else if !host.gitAdds path && host.createFails path then .error ("failed to create " ++ path)
  else
    match host.writeError taskId with
    | some error => .error error
    | none => .ok path

/-- `lease_for_task`, with the leases that are recorded. -/
def leaseForTask (leases : List WorktreeLease) (taskId : String) (parentTaskId : Option String)
    (now : ℕ) : List WorktreeLease × Except String WorktreeLease :=
  match host.acquire taskId with
  | .error error => (leases, .error error)
  | .ok path =>
    let lease := { taskId, parentTaskId, path, acquiredAt := now }
    (leases ++ [lease], .ok lease)

/-- The host without the files of the leases. -/
def treeHost : TreeHost Place :=
  { host.base with leaseForTask := fun taskId _ => host.acquire taskId }

variable (parentTaskId : String)

def spawn (agent : AgentProfile) (memberName prompt : String) (existing : List SessionTask)
    (sequentialContinuation : Bool) (tick : ℕ) (leases : List WorktreeLease) :
    List WorktreeLease × Except String SessionTask :=
  let task := (SessionTask.new parentTaskId memberName prompt none (host.base.uuid tick)
    (host.base.clock tick)).stampJoinSupersedes existing sequentialContinuation
  if agent.isolation = .worktree then
    match host.leaseForTask leases task.id (some parentTaskId) (host.base.clock tick) with
    | (leases, .error e) => (leases, .error e)
    | (leases, .ok lease) => (leases, .ok { task with worktreePath := some lease.path })
  else (leases, .ok task)

/-- The loop of `schedule_team`. -/
def createMembers (agents : List AgentProfile) (prompt : String) (sequential : Bool) :
    List String → ℕ → List WorktreeLease → TaskState →
      ℕ × List WorktreeLease × Except String (TaskState × List String)
  | [], tick, leases, state => (tick, leases, .ok (state, []))
  | memberName :: members, tick, leases, state =>
    match findAgent agents memberName with
    | .error e => (tick, leases, .error e)
    | .ok agent =>
      match host.spawn parentTaskId agent memberName prompt state.sessionTasks sequential tick leases with
      | (leases, .error e) => (tick + 1, leases, .error e)
      | (leases, .ok task) =>
        match createMembers agents prompt sequential members (tick + 1) leases
            (state.addSessionTask task (host.base.clock tick)) with
        | (tick, leases, .error e) => (tick, leases, .error e)
        | (tick, leases, .ok (state, ids)) => (tick, leases, .ok (state, task.id :: ids))

end LeaseHost

/-- The files of the tasks and the leases that were recorded. -/
structure LeasedTree (Place : Type) where
  tree : StateTree Place
  leases : List WorktreeLease := []

namespace LeasedTree

variable {Place : Type} [DecidableEq Place] (host : LeaseHost Place) (parentTaskId : String)

/-- `SubtaskOrchestrator::schedule_team` -/
def scheduleTeam (team : TeamDefinition) (agents : List AgentProfile) (prompt : String)
    (s : LeasedTree Place) : Option (LeasedTree Place × Except String TeamDecomposition) :=
  if team.members.isEmpty then
    some (s, .error ("team '" ++ team.name ++ "' has no members"))
  else (s.tree.teamParent host.treeHost parentTaskId).map fun loaded =>
    match loaded with
    | .error error => (s, .error error)
    | .ok parentState =>
      match host.createMembers parentTaskId agents prompt (team.scheduler = .sequential)
          (membersToCreate team) s.tree.tick s.leases parentState with
      | (tick, leases, .error error) => ({ tree := { s.tree with tick }, leases }, .error error)
      | (tick, leases, .ok (parentState, sessionTaskIds)) =>
        match StateTree.save host.treeHost { s.tree with tick } host.base.stateDir parentState with
        | (tree, .error error) => ({ tree, leases }, .error error)
        | (tree, .ok ()) =>
          ({ tree, leases }, .ok { parentTaskId, sessionTaskIds, scheduler := team.scheduler })

/-- An error comes with no new lease and with the parent that was saved before. -/
def AtomicOnError (team : TeamDefinition) (agents : List AgentProfile) (prompt : String)
    (s : LeasedTree Place) : Prop :=
  ∀ s' error, s.scheduleTeam host parentTaskId team agents prompt = some (s', .error error) →
    s'.leases = s.leases ∧ s'.tree.fileAt host.treeHost host.base.stateDir parentTaskId =
      s.tree.fileAt host.treeHost host.base.stateDir parentTaskId

end LeasedTree

/-! ### The leases of the loop -/

namespace LeaseHost

open StateTree (LeaseGranted MembersGranted SaveGoesThrough)

variable {Place : Type} (host : LeaseHost Place) (parentTaskId : String) (agents : List AgentProfile)

def leaseOf (agent : AgentProfile) (memberName : String) (tick : ℕ) : List WorktreeLease :=
  if agent.isolation = .worktree then
    let taskId := parentTaskId ++ "-" ++ memberName ++ "-" ++ host.base.uuid tick
    match host.acquire taskId with
    | .error _ => []
    | .ok path =>
      [{ taskId, parentTaskId := some parentTaskId, path, acquiredAt := host.base.clock tick }]
  else []

instance (agent : AgentProfile) (memberName : String) (tick : ℕ) :
    Decidable (LeaseGranted host.treeHost parentTaskId agent memberName tick) :=
  inferInstanceAs (Decidable (_ = _ → _ = _))

/-- The leases of the members in front of the first one that is no agent or has no worktree. -/
def leasesOf : List String → ℕ → List WorktreeLease
  | [], _ => []
  | memberName :: members, tick =>
    match findAgent agents memberName with
    | .error _ => []
    | .ok agent =>
      if LeaseGranted host.treeHost parentTaskId agent memberName tick then
        host.leaseOf parentTaskId agent memberName tick ++ leasesOf members (tick + 1)
      else []

/-- No agent in front of the first member that cannot be served works in a worktree. -/
def NoLeaseInFront : List String → ℕ → Prop
  | [], _ => True
  | memberName :: members, tick => ∀ agent, findAgent agents memberName = .ok agent →
      LeaseGranted host.treeHost parentTaskId agent memberName tick →
        agent.isolation ≠ .worktree ∧ NoLeaseInFront members (tick + 1)

variable {host parentTaskId agents}

variable {agent : AgentProfile} {memberName prompt : String} {sequential : Bool} {tick : ℕ}
  {leases : List WorktreeLease}

theorem spawn_eq (existing : List SessionTask) :
    host.spawn parentTaskId agent memberName prompt existing sequential tick leases =
      (leases ++ host.leaseOf parentTaskId agent memberName tick,
        Subtask.spawn host.treeHost.toTaskHost parentTaskId agent memberName prompt existing sequential
          tick) := by
  rw [spawn, Subtask.spawn, leaseOf]
  by_cases hworktree : agent.isolation = .worktree
  · rw [if_pos hworktree, if_pos hworktree, if_pos hworktree, leaseForTask]
    have hid : ((SessionTask.new parentTaskId memberName prompt none (host.base.uuid tick)
        (host.base.clock tick)).stampJoinSupersedes existing sequential).id =
          parentTaskId ++ "-" ++ memberName ++ "-" ++ host.base.uuid tick := rfl
    have hlease : host.treeHost.leaseForTask
        (parentTaskId ++ "-" ++ memberName ++ "-" ++ host.base.uuid tick) (some parentTaskId) =
          host.acquire (parentTaskId ++ "-" ++ memberName ++ "-" ++ host.base.uuid tick) := rfl
    have htreeHost : host.treeHost.uuid = host.base.uuid ∧ host.treeHost.clock = host.base.clock :=
      ⟨rfl, rfl⟩
    cases hacquire : host.acquire
        (parentTaskId ++ "-" ++ memberName ++ "-" ++ host.base.uuid tick) with
    | error error => simp only [hid, htreeHost, hlease, hacquire, List.append_nil]
    | ok path => simp only [hid, htreeHost, hlease, hacquire]
  · rw [if_neg hworktree, if_neg hworktree, if_neg hworktree, List.append_nil]
    rfl

theorem leaseOf_eq_nil_iff : host.leaseOf parentTaskId agent memberName tick = [] ↔
    (LeaseGranted host.treeHost parentTaskId agent memberName tick → agent.isolation ≠ .worktree) := by
  have hgranted : LeaseGranted host.treeHost parentTaskId agent memberName tick ↔
      (agent.isolation = .worktree → (host.acquire
        (parentTaskId ++ "-" ++ memberName ++ "-" ++ host.base.uuid tick)).isOk = true) := Iff.rfl
  rw [hgranted, leaseOf]
  by_cases hworktree : agent.isolation = .worktree
  · cases hacquire : host.acquire
        (parentTaskId ++ "-" ++ memberName ++ "-" ++ host.base.uuid tick) with
    | error error => simp [hacquire, Except.isOk, Except.toBool, hworktree]
    | ok path => simp [hacquire, Except.isOk, Except.toBool, hworktree]
  · rw [if_neg hworktree]
    exact ⟨fun _ _ => hworktree, fun _ => rfl⟩

/-- **The loop** does what it does without the leases, and adds these to them. -/
theorem createMembers_eq (members : List String) (tick : ℕ) (leases : List WorktreeLease)
    (state : TaskState) :
    host.createMembers parentTaskId agents prompt sequential members tick leases state =
      let run := Subtask.createMembers host.treeHost.toTaskHost parentTaskId agents prompt sequential
        members tick state
      (run.1, leases ++ host.leasesOf parentTaskId agents members tick, run.2) := by
  induction members generalizing tick leases state with
  | nil =>
    rw [leasesOf, List.append_nil]
    rfl
  | cons memberName members ih =>
    rw [createMembers, Subtask.createMembers, leasesOf]
    cases findAgent agents memberName with
    | error error =>
      rw [List.append_nil]
    | ok agent =>
      dsimp only
      rw [spawn_eq]
      cases hspawn : Subtask.spawn host.treeHost.toTaskHost parentTaskId agent memberName prompt
          state.sessionTasks sequential tick with
      | error error =>
        have hrefused : ¬LeaseGranted host.treeHost parentTaskId agent memberName tick := by
          intro hgranted
          obtain ⟨task, htask⟩ := StateTree.spawn_ok_iff.mpr hgranted
          cases hspawn.symm.trans htask
        rw [if_neg hrefused, leaseOf_eq_nil_iff.mpr fun h => absurd h hrefused]
      | ok task =>
        have hgranted : LeaseGranted host.treeHost parentTaskId agent memberName tick :=
          StateTree.spawn_ok_iff.mp ⟨task, hspawn⟩
        dsimp only
        have hclock : host.treeHost.clock = host.base.clock := rfl
        rw [if_pos hgranted, ih, List.append_assoc, hclock]
        rcases Subtask.createMembers host.treeHost.toTaskHost parentTaskId agents prompt sequential
          members (tick + 1) (state.addSessionTask task (host.base.clock tick)) with
          ⟨tick', error | ⟨state', ids⟩⟩
        all_goals rfl

theorem leasesOf_eq_nil_iff (members : List String) (tick : ℕ) :
    host.leasesOf parentTaskId agents members tick = [] ↔
      host.NoLeaseInFront parentTaskId agents members tick := by
  induction members generalizing tick with
  | nil => exact ⟨fun _ => trivial, fun _ => rfl⟩
  | cons memberName members ih =>
    rw [leasesOf, NoLeaseInFront]
    cases hagent : findAgent agents memberName with
    | error error => exact ⟨fun _ agent h => (nomatch h), fun _ => rfl⟩
    | ok agent =>
      dsimp only
      by_cases hgranted : LeaseGranted host.treeHost parentTaskId agent memberName tick
      · rw [if_pos hgranted, List.append_eq_nil_iff, leaseOf_eq_nil_iff, ih]
        constructor
        · rintro ⟨hshared, hrest⟩ agent' heq hgranted'
          cases heq
          exact ⟨hshared hgranted, hrest⟩
        · intro h
          obtain ⟨hshared, hrest⟩ := h agent rfl hgranted
          exact ⟨fun _ => hshared, hrest⟩
      · rw [if_neg hgranted]
        refine ⟨fun _ agent' heq hgranted' => ?_, fun _ => rfl⟩
        cases heq
        exact absurd hgranted' hgranted

end LeaseHost

/-! ### The whole call -/

namespace LeasedTree

open StateTree (MembersGranted SaveGoesThrough createMembers_cases save_cases)

variable {Place : Type} [DecidableEq Place] {host : LeaseHost Place} {parentTaskId : String}
  {team : TeamDefinition} {agents : List AgentProfile} {prompt : String} {s : LeasedTree Place}

/-- How a call ends that has loaded its parent. -/
inductive Ends (host : LeaseHost Place) (parentTaskId : String) (team : TeamDefinition)
    (agents : List AgentProfile) (start : TaskState) (s : LeasedTree Place) :
    LeasedTree Place × Except String TeamDecomposition → Prop where
  | failed (s' : LeasedTree Place) (error : String)
    (hfails : ¬ (MembersGranted host.treeHost parentTaskId agents (membersToCreate team) s.tree.tick ∧
      SaveGoesThrough host.treeHost s.tree start))
    (hfiles : s'.tree.files = s.tree.files)
    (hleases : s'.leases = s.leases ++ host.leasesOf parentTaskId agents (membersToCreate team) s.tree.tick) :
    Ends host parentTaskId team agents start s (s', .error error)
  | scheduled (s' : LeasedTree Place) (decomposition : TeamDecomposition)
    (hgranted : MembersGranted host.treeHost parentTaskId agents (membersToCreate team) s.tree.tick)
    (hsave : SaveGoesThrough host.treeHost s.tree start) :
    Ends host parentTaskId team agents start s (s', .ok decomposition)

theorem scheduleTeam_ends (hteam : team.members ≠ []) {start : TaskState}
    (hstart : s.tree.teamParent host.treeHost parentTaskId = some (.ok start)) :
    ∃ run, s.scheduleTeam host parentTaskId team agents prompt = some run ∧
      Ends host parentTaskId team agents start s run := by
  have hempty : team.members.isEmpty = false := by simpa using hteam
  rw [scheduleTeam, hempty, hstart]
  refine ⟨_, rfl, ?_⟩
  dsimp only
  rw [LeaseHost.createMembers_eq]
  obtain ⟨tick', error, hrun, hrefused⟩ | ⟨tick', state', ids, hrun, hgranted, hadds, -, -⟩ :=
    createMembers_cases host.treeHost parentTaskId prompt agents (team.scheduler = .sequential)
      (membersToCreate team) s.tree.tick start
  · rw [hrun]
    exact .failed _ _ (fun h => hrefused h.1) rfl rfl
  · rw [hrun]
    have hid : state'.id = start.id := StateTree.adds_id hadds
    have hgoes : SaveGoesThrough host.treeHost { s.tree with tick := tick' } state' ↔
        SaveGoesThrough host.treeHost s.tree start := by
      rw [SaveGoesThrough, SaveGoesThrough, hid]
    dsimp only
    obtain ⟨hsave, heq⟩ | ⟨hrefused, tree', error, heq, hfiles⟩ :=
      save_cases host.treeHost { s.tree with tick := tick' } state'
    · have hdir : host.base.stateDir = host.treeHost.stateDir := rfl
      rw [hdir, heq]
      exact .scheduled _ _ hgranted (hgoes.mp hsave)
    · have hdir : host.base.stateDir = host.treeHost.stateDir := rfl
      rw [hdir, heq]
      exact .failed _ _ (fun h => hrefused (hgoes.mpr h.2)) hfiles rfl

/-- **An error leaves no lease behind** exactly when there is none, or it comes before the first lease. -/
theorem scheduleTeam_atomic_iff (host : LeaseHost Place) (parentTaskId : String)
    (team : TeamDefinition) (agents : List AgentProfile) (prompt : String) (s : LeasedTree Place) :
    AtomicOnError host parentTaskId team agents prompt s ↔
      (team.members ≠ [] → ∀ start,
        s.tree.teamParent host.treeHost parentTaskId = some (.ok start) →
          (MembersGranted host.treeHost parentTaskId agents (membersToCreate team) s.tree.tick ∧
              SaveGoesThrough host.treeHost s.tree start) ∨
            host.NoLeaseInFront parentTaskId agents (membersToCreate team) s.tree.tick) := by
  constructor
  · intro h hteam start hstart
    obtain ⟨run, hrun, hends⟩ := scheduleTeam_ends hteam hstart
    cases hends with
    | failed s' error hfails hfiles hleases =>
      have hsame := (h s' error hrun).1
      rw [hleases] at hsame
      exact Or.inr (LeaseHost.leasesOf_eq_nil_iff _ _ |>.mp (List.append_right_eq_self.mp hsame))
    | scheduled s' decomposition hgranted hsave => exact Or.inl ⟨hgranted, hsave⟩
  · intro h s' error hrun
    by_cases hteam : team.members = []
    · rw [scheduleTeam, hteam] at hrun
      cases hrun
      exact ⟨rfl, rfl⟩
    · cases hstart : s.tree.teamParent host.treeHost parentTaskId with
      | none =>
        rw [scheduleTeam, hstart, if_neg (by simpa using hteam)] at hrun
        cases hrun
      | some loaded =>
        cases loaded with
        | error error' =>
          rw [scheduleTeam, hstart, if_neg (by simpa using hteam)] at hrun
          cases hrun
          exact ⟨rfl, rfl⟩
        | ok start =>
          obtain ⟨run, hrun', hends⟩ :=
            scheduleTeam_ends hteam hstart
          cases Option.some.inj (hrun'.symm.trans hrun)
          cases hends with
          | failed _ _ hfails hfiles hleases =>
            refine ⟨?_, by rw [StateTree.fileAt, StateTree.fileAt, hfiles]⟩
            have hnone := (h hteam start hstart).resolve_left hfails
            rw [hleases, (LeaseHost.leasesOf_eq_nil_iff _ _).mpr hnone, List.append_nil]

def sampleLeaseHost : LeaseHost String where
  base := StateTree.sampleTreeHost
  createFails _ := false
  gitAdds _ := true
  writeError _ := none

def noFiles : LeasedTree String where
  tree := { files := fun _ => none }

/-- **The second member is no agent**, and the worktree of the first one stays leased. -/
theorem lease_left_behind :
    ¬ AtomicOnError sampleLeaseHost "p" { name := "t", members := ["a", "b"] } [{ name := "a" }] "work"
      noFiles := by
  intro h
  have hrun : (scheduleTeam sampleLeaseHost "p" { name := "t", members := ["a", "b"] }
      [{ name := "a" }] "work" noFiles).map (fun run => (run.1.leases.map WorktreeLease.path, run.2.isOk)) =
        some (["state/worktrees/p-a-00000000-0000-4000-8000-000000000000"], false) := by
    decide +kernel
  obtain ⟨⟨s', result⟩, hsome, heq⟩ := Option.map_eq_some_iff.mp hrun
  cases result with
  | ok decomposition => exact absurd (congrArg Prod.snd heq) Bool.noConfusion
  | error error =>
    have hleases := (h s' error hsome).1
    rw [hleases] at heq
    have hpaths : ([] : List String) = ["state/worktrees/p-a-00000000-0000-4000-8000-000000000000"] :=
      congrArg Prod.fst heq
    cases hpaths

end LeasedTree

end Vexcoder.Subtask

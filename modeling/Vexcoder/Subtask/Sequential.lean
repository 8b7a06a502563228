import Vexcoder.Subtask.Orchestrator

/-!
# Teams in sequence

A run on one parent task schedules a sequential team, advances it and lets its session tasks change
their status.  The orchestrator keeps no position: it looks for the first task of each member.
`InSequence` is what that has to give, `StepSafe` says in front of which steps it does, and two
schedules in a row show what happens otherwise.
-/

namespace Vexcoder.Subtask

open Vexcoder.Task

inductive TeamCall where
  | scheduleTeam (agents : List AgentProfile) (prompt : String)
  | advanceSequential (agents : List AgentProfile) (prompt : String)
  | updateStatus (id : String) (status : SessionTaskStatus)

structure TeamState where
  system : System := {}
  /-- How many session tasks there were when the team was last scheduled. -/
  since : ℕ := 0

variable (host : TaskHost) (parentTaskId : String) (team : TeamDefinition)

def teamStep (s : TeamState) : TeamCall → TeamState
  | .scheduleTeam agents prompt =>
    match scheduleTeam host parentTaskId team agents prompt s.system with
    | (system, .ok _) => { system, since := s.system.tasks.length }
    | (system, .error _) => { s with system }
  | .advanceSequential agents prompt =>
    { s with system := (advanceSequential host parentTaskId team agents prompt s.system).1 }
  | .updateStatus id status => { s with system := updateSessionTaskStatus host id status s.system }

def teamRun (s : TeamState) (calls : List TeamCall) : TeamState :=
  calls.foldl (teamStep host parentTaskId team) s

/-- A parent task on which the team has not worked yet. -/
def TeamState.start (files : ParentFiles) : TeamState :=
  { system := { files }, since := (System.tasks { files }).length }

def TeamState.latest (s : TeamState) : List SessionTask := s.system.tasks.drop s.since

def liveOf (tasks : List SessionTask) : List SessionTask :=
  tasks.filter fun task => task.agentId ∈ team.members && task.lifecycleState.isLive

def Terminal (task : SessionTask) : Prop := task.lifecycleState.isLive = false

/-- **What a sequential schedule is.**  At most one task of the team is live; the tasks of the latest
schedule are those of the first members, each ended before the next began; when an advance finds
nothing to do and no task is live, each member has had its task; and the schedule is exhausted when all
these have ended. -/
structure InSequence (s : TeamState) : Prop where
  oneLive : (liveOf team s.system.tasks).length ≤ 1
  inOrder : s.latest.map SessionTask.agentId <+: team.members
  ended : ∀ task ∈ s.latest.dropLast, Terminal task
  complete : ∀ agents prompt,
    (advanceSequential host parentTaskId team agents prompt s.system).2 = .ok none →
      liveOf team s.system.tasks = [] → s.latest.map SessionTask.agentId = team.members
  exhausted : ∀ result, isTeamScheduleExhausted host parentTaskId team s.system = .ok result →
    (result = true ↔ s.latest.map SessionTask.agentId = team.members ∧ ∀ task ∈ s.latest, Terminal task)

/-- A schedule begins behind ended tasks of the first member only, of a team that has more; and an
advance sees each live task of the team as the first of its member. -/
def StepSafe (tasks : List SessionTask) : TeamCall → Prop
  | .scheduleTeam .. => ∀ task ∈ tasks, task.agentId ∈ team.members →
    team.members.head? = some task.agentId ∧ Terminal task ∧ 2 ≤ team.members.length
  | .advanceSequential .. => ∀ task ∈ liveOf team tasks,
    (tasks.find? fun other => other.agentId = task.agentId).any (·.lifecycleState.isLive) = true
  | .updateStatus .. => True

instance (task : SessionTask) : Decidable (Terminal task) :=
  inferInstanceAs (Decidable (task.lifecycleState.isLive = false))

instance (tasks : List SessionTask) (call : TeamCall) : Decidable (StepSafe team tasks call) :=
  match call with
  | .scheduleTeam .. => List.decidableBAll _ tasks
  | .advanceSequential .. => List.decidableBAll _ (liveOf team tasks)
  | .updateStatus .. => .isTrue trivial

def AllSafe (s : TeamState) : List TeamCall → Prop
  | [] => True
  | call :: calls =>
    StepSafe team s.system.tasks call ∧ AllSafe (teamStep host parentTaskId team s call) calls

instance AllSafe.decide (s : TeamState) (calls : List TeamCall) :
    Decidable (AllSafe host parentTaskId team s calls) :=
  match calls with
  | [] => .isTrue trivial
  | call :: calls =>
    have := AllSafe.decide (teamStep host parentTaskId team s call) calls
    inferInstanceAs (Decidable (_ ∧ _))

/-! ### What the calls do to the tasks -/

variable {host parentTaskId team} {s : System}

theorem scheduleTeam_tasks (hscheduler : team.scheduler = .sequential)
    (agents : List AgentProfile) (prompt : String) (s : System) :
    match scheduleTeam host parentTaskId team agents prompt s with
    | (s', .error _) => s'.tasks = s.tasks
    | (s', .ok _) => ∃ task, s'.tasks = s.tasks ++ [task] ∧
        team.members.head? = some task.agentId ∧ task.lifecycleState = .pending := by
  have htasks : (s.files.state.getD (newTaskState parentTaskId (host.clock s.tick))).sessionTasks =
      s.tasks := by
    rw [System.tasks]
    cases s.files.state with
    | none | some state => rfl
  rw [scheduleTeam]
  cases hmembers : team.members with
  | nil => rfl
  | cons memberName members =>
    rw [membersToCreate, hscheduler, hmembers]
    dsimp only
    rw [List.take_succ_cons, createMembers]
    cases findAgent agents memberName with
    | error e => rfl
    | ok agent =>
      dsimp only
      cases hspawn : spawn host parentTaskId agent memberName prompt
          (s.files.state.getD (newTaskState parentTaskId (host.clock s.tick))).sessionTasks
          (decide (TeamScheduler.sequential = .sequential)) s.tick with
      | error e => rfl
      | ok task =>
        obtain ⟨-, hagent, hpending, -⟩ := spawn_spec hspawn
        refine ⟨task, ?_, ?_, hpending⟩
        · rw [← htasks]
          rfl
        · rw [hagent]
          rfl

theorem advanceSequential_tasks (agents : List AgentProfile) (prompt : String) (s : System) :
    (advanceSequential host parentTaskId team agents prompt s).1.tasks = s.tasks ∨
      ∃ task, (advanceSequential host parentTaskId team agents prompt s).1.tasks = s.tasks ++ [task] ∧
        nextMember s.tasks team.members = some task.agentId ∧ task.lifecycleState = .pending := by
  rw [advanceSequential, loadParent]
  cases hstate : s.files.state with
  | none => exact .inl rfl
  | some state =>
    have htasks : s.tasks = state.sessionTasks := by rw [System.tasks, hstate]
    dsimp only
    cases hnext : nextMember state.sessionTasks team.members with
    | none => exact .inl rfl
    | some memberName =>
      dsimp only
      cases findAgent agents memberName with
      | error e => exact .inl rfl
      | ok agent =>
        dsimp only
        cases hspawn : spawn host parentTaskId agent memberName prompt state.sessionTasks true s.tick with
        | error e => exact .inl rfl
        | ok task =>
          obtain ⟨-, hagent, hpending, -⟩ := spawn_spec hspawn
          refine .inr ⟨task, ?_, ?_, hpending⟩
          · rw [htasks]
            rfl
          · rw [htasks, hnext, hagent]

theorem advanceSequential_none {agents : List AgentProfile} {prompt : String}
    (h : (advanceSequential host parentTaskId team agents prompt s).2 = .ok none) :
    nextMember s.tasks team.members = none := by
  rw [advanceSequential, loadParent] at h
  cases hstate : s.files.state with
  | none =>
    rw [hstate] at h
    cases h
  | some state =>
    have htasks : s.tasks = state.sessionTasks := by rw [System.tasks, hstate]
    rw [hstate] at h
    dsimp only at h
    rw [htasks]
    cases hnext : nextMember state.sessionTasks team.members with
    | none => rfl
    | some memberName =>
      rw [hnext] at h
      dsimp only at h
      split at h
      · cases h
      · split at h <;> cases h

theorem isTeamScheduleExhausted_ok {result : Bool}
    (h : isTeamScheduleExhausted host parentTaskId team s = .ok result) :
    result = true ↔
      ∀ memberName ∈ team.members, ∃ task ∈ s.tasks, task.agentId = memberName ∧ Terminal task := by
  rw [isTeamScheduleExhausted, loadParent] at h
  cases hstate : s.files.state with
  | none =>
    rw [hstate] at h
    cases h
  | some state =>
    have htasks : s.tasks = state.sessionTasks := by rw [System.tasks, hstate]
    rw [hstate] at h
    cases h
    rw [htasks]
    simp [Terminal]

/-- The task after a change has the agent it had, and stays ended when it was. -/
def Kept (task task' : SessionTask) : Prop :=
  task'.agentId = task.agentId ∧ (Terminal task → Terminal task')

theorem Kept.refl (task : SessionTask) : Kept task task := ⟨rfl, id⟩

theorem kept_refl (tasks : List SessionTask) : List.Forall₂ Kept tasks tasks :=
  List.forall₂_same.mpr fun task _ => Kept.refl task

theorem forall₂_modify {R : SessionTask → SessionTask → Prop} (refl : ∀ task, R task task)
    {tasks : List SessionTask} {i : ℕ} {change : SessionTask → SessionTask}
    (h : ∀ task, tasks[i]? = some task → R task (change task)) :
    List.Forall₂ R tasks (tasks.modify i change) := by
  induction tasks generalizing i with
  | nil =>
    cases i <;> exact .nil
  | cons task tasks ih =>
    cases i with
    | zero => exact .cons (h task rfl) (List.forall₂_same.mpr fun task _ => refl task)
    | succ i => exact .cons (refl task) (ih fun task' htask => h task' htask)

theorem updateSessionTaskStatus_tasks (id : String) (status : SessionTaskStatus) (s : System) :
    List.Forall₂ Kept s.tasks (updateSessionTaskStatus host id status s).tasks := by
  rw [updateSessionTaskStatus]
  cases hstate : s.files.state with
  | none => exact kept_refl _
  | some state =>
    have htasks : s.tasks = state.sessionTasks := by rw [System.tasks, hstate]
    dsimp only
    split
    · exact kept_refl _
    rename_i task hfound
    split
    · rename_i hlive
      rw [htasks]
      refine forall₂_modify Kept.refl fun task' htask' => ⟨rfl, fun hterminal => ?_⟩
      rw [← List.find?_eq_getElem?_findIdx] at htask'
      obtain rfl := Option.some.inj (hfound.symm.trans htask')
      rw [Terminal, hlive] at hterminal
      cases hterminal
    · exact kept_refl _

/-! ### The tasks of the latest schedule -/

/-- What holds along a safe run. -/
structure Sequenced (team : TeamDefinition) (tasks : List SessionTask) (since : ℕ) : Prop where
  before : ∀ task ∈ tasks.take since, task.agentId ∈ team.members →
    team.members.head? = some task.agentId ∧ Terminal task ∧ 2 ≤ team.members.length
  inOrder : (tasks.drop since).map SessionTask.agentId <+: team.members
  ended : ∀ task ∈ (tasks.drop since).dropLast, Terminal task
  begun : (∃ task ∈ tasks.take since, task.agentId ∈ team.members) → tasks.drop since ≠ []

variable {tasks tasks' : List SessionTask} {since : ℕ}

theorem mem_kept (h : List.Forall₂ Kept tasks tasks') {task' : SessionTask} (hmem : task' ∈ tasks') :
    ∃ task ∈ tasks, Kept task task' := by
  induction h with
  | nil => cases hmem
  | cons hkept _ ih =>
    rcases List.mem_cons.mp hmem with rfl | hmem
    · exact ⟨_, List.mem_cons_self, hkept⟩
    · obtain ⟨task, htask, hkept⟩ := ih hmem
      exact ⟨task, List.mem_cons_of_mem _ htask, hkept⟩

theorem map_kept (h : List.Forall₂ Kept tasks tasks') :
    tasks'.map SessionTask.agentId = tasks.map SessionTask.agentId := by
  induction h with
  | nil => rfl
  | cons hkept _ ih => rw [List.map_cons, List.map_cons, hkept.1, ih]

theorem Sequenced.kept (h : Sequenced team tasks since) (hkept : List.Forall₂ Kept tasks tasks') :
    Sequenced team tasks' since := by
  have htake := List.forall₂_take since hkept
  have hdrop := List.forall₂_drop since hkept
  constructor
  · intro task' hmem hmember
    obtain ⟨task, htask, hagent, hterminal⟩ := mem_kept htake hmem
    rw [hagent] at hmember ⊢
    obtain ⟨hhead, hended, htwo⟩ := h.before task htask hmember
    exact ⟨hhead, hterminal hended, htwo⟩
  · rw [map_kept hdrop]
    exact h.inOrder
  · intro task' hmem
    rw [List.dropLast_eq_take, ← hdrop.length_eq] at hmem
    obtain ⟨task, htask, -, hterminal⟩ := mem_kept (List.forall₂_take _ hdrop) hmem
    rw [← List.dropLast_eq_take] at htask
    exact hterminal (h.ended task htask)
  · rintro ⟨task', hmem, hmember⟩ hnil
    obtain ⟨task, htask, hagent, -⟩ := mem_kept htake hmem
    rw [hagent] at hmember
    have hlength := hdrop.length_eq
    rw [hnil] at hlength
    exact h.begun ⟨task, htask, hmember⟩ (List.eq_nil_of_length_eq_zero hlength)

/-- The members of the latest schedule, and the members that have no task yet. -/
theorem Sequenced.split (h : Sequenced team tasks since) (hnodup : team.members.Nodup) :
    ∃ rest, (tasks.drop since).map SessionTask.agentId ++ rest = team.members ∧
      ∀ memberName ∈ rest, ∀ task ∈ tasks, task.agentId ≠ memberName := by
  obtain ⟨rest, hrest⟩ := h.inOrder
  refine ⟨rest, hrest, fun memberName hmem task htask heq => ?_⟩
  rw [← hrest] at hnodup
  have hdisjoint := (List.nodup_append.mp hnodup).2.2
  rw [← List.take_append_drop since tasks] at htask
  rcases List.mem_append.mp htask with htask | htask
  · have hmember : task.agentId ∈ team.members := by
      rw [← hrest, heq]
      exact List.mem_append_right _ hmem
    obtain ⟨hhead, -, -⟩ := h.before task htask hmember
    cases hlatest : tasks.drop since with
    | nil => exact h.begun ⟨task, htask, hmember⟩ hlatest
    | cons first others =>
      rw [hlatest] at hrest hdisjoint
      rw [← hrest] at hhead
      have hfirst : first.agentId = task.agentId := Option.some.inj hhead
      exact hdisjoint first.agentId List.mem_cons_self memberName hmem (hfirst.trans heq)
  · exact hdisjoint task.agentId (List.mem_map_of_mem htask) memberName hmem heq

/-- The live tasks of the team are among those of the latest schedule. -/
theorem Sequenced.liveOf (h : Sequenced team tasks since) :
    Subtask.liveOf team tasks = Subtask.liveOf team (tasks.drop since) := by
  have hbefore : Subtask.liveOf team (tasks.take since) = [] := by
    refine List.filter_eq_nil_iff.mpr fun task htask hlive => ?_
    rw [Bool.and_eq_true, decide_eq_true_eq] at hlive
    have hterminal := (h.before task htask hlive.1).2.1
    rw [Terminal, hlive.2] at hterminal
    cases hterminal
  conv_lhs => rw [← List.take_append_drop since tasks]
  rw [Subtask.liveOf, List.filter_append]
  show Subtask.liveOf team (tasks.take since) ++ Subtask.liveOf team (tasks.drop since) = _
  rw [hbefore, List.nil_append]

theorem liveOf_ended {latest : List SessionTask} (h : ∀ task ∈ latest, Terminal task) :
    liveOf team latest = [] := by
  refine List.filter_eq_nil_iff.mpr fun task htask hlive => ?_
  rw [Bool.and_eq_true] at hlive
  have hterminal := h task htask
  rw [Terminal, hlive.2] at hterminal
  cases hterminal

theorem Sequenced.oneLive (h : Sequenced team tasks since) : (Subtask.liveOf team tasks).length ≤ 1 := by
  rw [h.liveOf]
  rcases List.eq_nil_or_concat (tasks.drop since) with hnil | ⟨init, last, hconcat⟩
  · rw [hnil]
    exact Nat.zero_le 1
  rw [List.concat_eq_append] at hconcat
  have hended := h.ended
  rw [hconcat, List.dropLast_concat] at hended
  rw [hconcat, Subtask.liveOf, List.filter_append]
  show (Subtask.liveOf team init ++ _).length ≤ 1
  rw [liveOf_ended hended, List.nil_append]
  exact List.length_filter_le _ [last]

theorem Sequenced.ended_all (h : Sequenced team tasks since) (hlive : Subtask.liveOf team tasks = []) :
    ∀ task ∈ tasks.drop since, Terminal task := by
  intro task htask
  have hmember : task.agentId ∈ team.members := h.inOrder.subset (List.mem_map_of_mem htask)
  have hnot := List.filter_eq_nil_iff.mp hlive task (List.mem_of_mem_drop htask)
  rw [Bool.and_eq_true, decide_eq_true_eq, not_and] at hnot
  exact Bool.eq_false_iff.mpr (hnot hmember)

/-! ### The next member -/

theorem nextMember_none {members : List String} (h : nextMember tasks members = none)
    (hlive : ∀ memberName ∈ members, ∀ task ∈ tasks, task.agentId = memberName → Terminal task) :
    ∀ memberName ∈ members, ∃ task ∈ tasks, task.agentId = memberName := by
  induction members with
  | nil => exact nofun
  | cons other members ih =>
    rw [nextMember] at h
    cases hfirst : tasks.find? fun task => task.agentId = other with
    | none =>
      rw [hfirst] at h
      cases h
    | some first =>
      rw [hfirst] at h
      have hmem := List.mem_of_find?_eq_some hfirst
      have hagent : first.agentId = other := by simpa using List.find?_some hfirst
      have hended : first.lifecycleState.isLive = false := hlive other List.mem_cons_self first hmem hagent
      dsimp only at h
      rw [hended] at h
      intro memberName hmember
      rcases List.mem_cons.mp hmember with rfl | hmember
      · exact ⟨first, hmem, hagent⟩
      · exact ih h (fun memberName hmember => hlive memberName (List.mem_cons_of_mem _ hmember))
          memberName hmember

/-- Where the first members have tasks and the others none, the next member is the first of the
others, and the first task of each one before it has ended. -/
theorem nextMember_some {started rest : List String} {memberName : String}
    (hstarted : ∀ other ∈ started, ∃ task ∈ tasks, task.agentId = other)
    (hrest : ∀ other ∈ rest, ∀ task ∈ tasks, task.agentId ≠ other)
    (h : nextMember tasks (started ++ rest) = some memberName) :
    rest.head? = some memberName ∧
      ∀ other ∈ started, ∀ first, tasks.find? (fun task => task.agentId = other) = some first →
        Terminal first := by
  induction started with
  | nil =>
    cases rest with
    | nil => cases h
    | cons other rest =>
      have hfirst : tasks.find? (fun task => decide (task.agentId = other)) = none :=
        List.find?_eq_none.mpr fun task htask hagent =>
          hrest other List.mem_cons_self task htask (of_decide_eq_true hagent)
      rw [List.nil_append, nextMember, hfirst] at h
      exact ⟨h, nofun⟩
  | cons other started ih =>
    rw [List.cons_append, nextMember] at h
    cases hfirst : tasks.find? fun task => task.agentId = other with
    | none =>
      obtain ⟨task, htask, hagent⟩ := hstarted other List.mem_cons_self
      exact absurd (decide_eq_true hagent) (List.find?_eq_none.mp hfirst task htask)
    | some first =>
      rw [hfirst] at h
      dsimp only at h
      split at h
      · cases h
      rename_i hended
      obtain ⟨hhead, hothers⟩ := ih (fun other hmem => hstarted other (List.mem_cons_of_mem _ hmem)) h
      refine ⟨hhead, fun other' hmem first' hfirst' => ?_⟩
      rcases List.mem_cons.mp hmem with rfl | hmem
      · rw [hfirst] at hfirst'
        cases hfirst'
        exact Bool.eq_false_iff.mpr hended
      · exact hothers other' hmem first' hfirst'

/-! ### Steps -/

theorem sequenced_schedule {task : SessionTask}
    (hsafe : ∀ task ∈ tasks, task.agentId ∈ team.members →
      team.members.head? = some task.agentId ∧ Terminal task ∧ 2 ≤ team.members.length)
    (hhead : team.members.head? = some task.agentId) :
    Sequenced team (tasks ++ [task]) tasks.length := by
  have htake : (tasks ++ [task]).take tasks.length = tasks := List.take_left
  have hdrop : (tasks ++ [task]).drop tasks.length = [task] := List.drop_left
  constructor
  · rw [htake]
    exact hsafe
  · rw [hdrop]
    cases hmembers : team.members with
    | nil =>
      rw [hmembers] at hhead
      cases hhead
    | cons memberName members =>
      rw [hmembers] at hhead
      cases hhead
      exact ⟨members, rfl⟩
  · rw [hdrop]
    exact nofun
  · rw [hdrop]
    exact fun _ => List.cons_ne_nil _ _

theorem sequenced_advance (h : Sequenced team tasks since) (hsince : since ≤ tasks.length)
    (hnodup : team.members.Nodup) (hsafe : ∀ task ∈ Subtask.liveOf team tasks,
      (tasks.find? fun other => other.agentId = task.agentId).any (·.lifecycleState.isLive) = true)
    {task : SessionTask} (hnext : nextMember tasks team.members = some task.agentId) :
    Sequenced team (tasks ++ [task]) since := by
  obtain ⟨rest, hrest, hnone⟩ := h.split hnodup
  have hstarted : ∀ other ∈ (tasks.drop since).map SessionTask.agentId,
      ∃ task ∈ tasks, task.agentId = other := by
    intro other hmem
    obtain ⟨started, hstarted, rfl⟩ := List.mem_map.mp hmem
    exact ⟨started, List.mem_of_mem_drop hstarted, rfl⟩
  rw [← hrest] at hnext
  obtain ⟨hhead, hfirsts⟩ := nextMember_some hstarted hnone hnext
  have hlive : Subtask.liveOf team tasks = [] := by
    refine List.eq_nil_iff_forall_not_mem.mpr fun live hmem => ?_
    obtain ⟨first, hfirst, hfirstLive⟩ := (Option.any_eq_true _ _).mp (hsafe live hmem)
    rw [h.liveOf] at hmem
    have hagent := List.mem_map_of_mem (f := SessionTask.agentId) (List.mem_filter.mp hmem).1
    have hended := hfirsts live.agentId hagent first hfirst
    rw [Terminal, hfirstLive] at hended
    cases hended
  have hended := h.ended_all hlive
  have htake : (tasks ++ [task]).take since = tasks.take since := List.take_append_of_le_length hsince
  have hdrop : (tasks ++ [task]).drop since = tasks.drop since ++ [task] :=
    List.drop_append_of_le_length hsince
  constructor
  · rw [htake]
    exact h.before
  · rw [hdrop, List.map_append, ← hrest]
    cases rest with
    | nil => cases hhead
    | cons memberName rest =>
      cases hhead
      exact ⟨rest, by rw [List.append_assoc]; rfl⟩
  · rw [hdrop, List.dropLast_concat]
    exact hended
  · rw [hdrop]
    exact fun _ => by simp

/-- When each member has had its task and some ended task, the tasks of the latest schedule have ended:
the last one is the only task of its member. -/
theorem Sequenced.ended_of_exhausted (h : Sequenced team tasks since) (hnodup : team.members.Nodup)
    (hagents : (tasks.drop since).map SessionTask.agentId = team.members)
    (hall : ∀ memberName ∈ team.members, ∃ task ∈ tasks, task.agentId = memberName ∧ Terminal task) :
    ∀ task ∈ tasks.drop since, Terminal task := by
  rcases List.eq_nil_or_concat (tasks.drop since) with hnil | ⟨init, last, hconcat⟩
  · rw [hnil]
    exact nofun
  rw [List.concat_eq_append] at hconcat
  have hended := h.ended
  rw [hconcat, List.dropLast_concat] at hended
  rw [hconcat, List.map_append] at hagents
  have hmember : last.agentId ∈ team.members := by
    rw [← hagents]
    exact List.mem_append_right _ (List.mem_singleton.mpr rfl)
  have honly : ∀ task ∈ init, task.agentId ≠ last.agentId := by
    rw [← hagents] at hnodup
    exact fun task htask => (List.nodup_append.mp hnodup).2.2 _ (List.mem_map_of_mem htask) _
      (List.mem_singleton.mpr rfl)
  have hlast : Terminal last := by
    obtain ⟨task, htask, hagent, hterminal⟩ := hall _ hmember
    rw [← List.take_append_drop since tasks] at htask
    rcases List.mem_append.mp htask with htask | htask
    · obtain ⟨hhead, -, htwo⟩ := h.before task htask (hagent ▸ hmember)
      rw [← hagents] at hhead htwo
      cases init with
      | nil => exact absurd htwo (by simp)
      | cons first others =>
        have hfirst : first.agentId = task.agentId := Option.some.inj hhead
        exact absurd (hfirst.trans hagent) (honly first List.mem_cons_self)
    · rw [hconcat] at htask
      rcases List.mem_append.mp htask with htask | htask
      · exact absurd hagent (honly task htask)
      · rw [← List.mem_singleton.mp htask]
        exact hterminal
  intro task htask
  rw [hconcat] at htask
  rcases List.mem_append.mp htask with htask | htask
  · exact hended task htask
  · rw [List.mem_singleton.mp htask]
    exact hlast

/-- **What a safe run keeps** is enough for the schedule. -/
theorem Sequenced.inSequence {s : TeamState} (h : Sequenced team s.system.tasks s.since)
    (hnodup : team.members.Nodup) : InSequence host parentTaskId team s := by
  obtain ⟨rest, hrest, hnone⟩ := h.split hnodup
  have hcomplete : rest = [] → s.latest.map SessionTask.agentId = team.members := by
    rintro rfl
    rw [← hrest, List.append_nil]
    rfl
  refine ⟨h.oneLive, h.inOrder, h.ended, fun agents prompt hnext hlive => ?_, fun result hresult => ?_⟩
  · have hterminal : ∀ memberName ∈ team.members, ∀ task ∈ s.system.tasks,
        task.agentId = memberName → Terminal task := by
      rintro memberName hmember task htask rfl
      have hnot := List.filter_eq_nil_iff.mp hlive task htask
      rw [Bool.and_eq_true, decide_eq_true_eq, not_and] at hnot
      exact Bool.eq_false_iff.mpr (hnot hmember)
    have hall := nextMember_none (advanceSequential_none hnext) hterminal
    refine hcomplete (List.eq_nil_iff_forall_not_mem.mpr fun memberName hmem => ?_)
    have hmember : memberName ∈ team.members := hrest ▸ List.mem_append_right _ hmem
    obtain ⟨task, htask, hagent⟩ := hall memberName hmember
    exact hnone memberName hmem task htask hagent
  · rw [isTeamScheduleExhausted_ok hresult]
    constructor
    · intro hall
      have hagents := hcomplete (List.eq_nil_iff_forall_not_mem.mpr fun memberName hmem => by
        obtain ⟨task, htask, hagent, -⟩ := hall memberName (hrest ▸ List.mem_append_right _ hmem)
        exact hnone memberName hmem task htask hagent)
      exact ⟨hagents, h.ended_of_exhausted hnodup hagents hall⟩
    · rintro ⟨hagents, hended⟩ memberName hmember
      rw [← hagents] at hmember
      obtain ⟨task, htask, hagent⟩ := List.mem_map.mp hmember
      exact ⟨task, List.mem_of_mem_drop htask, hagent, hended task htask⟩

/-! ### Runs -/

theorem sequenced_step {s : TeamState} (h : Sequenced team s.system.tasks s.since)
    (hsince : s.since ≤ s.system.tasks.length) (hscheduler : team.scheduler = .sequential)
    (hnodup : team.members.Nodup) {call : TeamCall} (hsafe : StepSafe team s.system.tasks call) :
    Sequenced team (teamStep host parentTaskId team s call).system.tasks
        (teamStep host parentTaskId team s call).since ∧
      (teamStep host parentTaskId team s call).since ≤
        (teamStep host parentTaskId team s call).system.tasks.length := by
  cases call with
  | scheduleTeam agents prompt =>
    have htasks := @scheduleTeam_tasks host parentTaskId team hscheduler agents prompt s.system
    rw [teamStep]
    split
    all_goals
      rename_i heq
      rw [heq] at htasks
    · obtain ⟨task, htasks, hhead, -⟩ := htasks
      rw [htasks, List.length_append]
      exact ⟨sequenced_schedule hsafe hhead, Nat.le_add_right _ _⟩
    · rw [htasks]
      exact ⟨h, hsince⟩
  | advanceSequential agents prompt =>
    rw [teamStep]
    rcases @advanceSequential_tasks host parentTaskId team agents prompt s.system with
      htasks | ⟨task, htasks, hnext, -⟩
    · rw [htasks]
      exact ⟨h, hsince⟩
    · rw [htasks, List.length_append]
      exact ⟨sequenced_advance h hsince hnodup hsafe hnext, le_trans hsince (Nat.le_add_right _ _)⟩
  | updateStatus id status =>
    have hkept := @updateSessionTaskStatus_tasks host id status s.system
    refine ⟨h.kept hkept, ?_⟩
    rw [teamStep]
    rw [← hkept.length_eq]
    exact hsince

/-- **Sequential teams**: in a run whose steps are all safe the schedule is in sequence. -/
theorem inSequence_run (host : TaskHost) (parentTaskId : String) (team : TeamDefinition)
    (hscheduler : team.scheduler = .sequential) (hnodup : team.members.Nodup) (files : ParentFiles)
    (hstart : ∀ task ∈ System.tasks { files }, task.agentId ∉ team.members) (calls : List TeamCall)
    (hsafe : AllSafe host parentTaskId team (TeamState.start files) calls) :
    InSequence host parentTaskId team
      (teamRun host parentTaskId team (TeamState.start files) calls) := by
  have hrun : ∀ (calls : List TeamCall) (s : TeamState), Sequenced team s.system.tasks s.since →
      s.since ≤ s.system.tasks.length → AllSafe host parentTaskId team s calls →
      InSequence host parentTaskId team (teamRun host parentTaskId team s calls) := by
    intro calls
    induction calls with
    | nil => exact fun s h _ _ => h.inSequence hnodup
    | cons call calls ih =>
      intro s h hsince hsafe
      obtain ⟨hnext, hlater⟩ := sequenced_step h hsince hscheduler hnodup hsafe.1
      exact ih _ hnext hlater hsafe.2
  refine hrun calls _ ?_ (le_refl _) hsafe
  have htake : (System.tasks { files }).take (System.tasks { files }).length =
      System.tasks { files } := List.take_length
  have hdrop : (System.tasks { files }).drop (System.tasks { files }).length = [] := List.drop_length
  show Sequenced team (System.tasks { files }) (System.tasks { files }).length
  constructor
  · rw [htake]
    exact fun task htask hmember => absurd hmember (hstart task htask)
  · rw [hdrop]
    exact List.nil_prefix
  · rw [hdrop]
    exact nofun
  · rw [htake]
    exact fun ⟨task, htask, hmember⟩ => absurd hmember (hstart task htask)

theorem inSequence_run_sample :
    InSequence sampleHost "p" sampleTeam
      (teamRun sampleHost "p" sampleTeam (TeamState.start {})
        [.scheduleTeam sampleAgents "work", .advanceSequential sampleAgents "work",
          .updateStatus (sampleId "a" 0) .failed, .advanceSequential sampleAgents "work",
          .updateStatus (sampleId "b" 1) .completed]) :=
  inSequence_run sampleHost "p" sampleTeam rfl (by decide) {} (by decide) _ (by decide +kernel)

/-- A second schedule: the next advance looks at the first task of the first member, which has ended,
and begins the second member while the new task of the first one is live. -/
theorem second_schedule_overlaps :
    ¬ InSequence sampleHost "p" sampleTeam
      (teamRun sampleHost "p" sampleTeam (TeamState.start {})
        [.scheduleTeam sampleAgents "work", .updateStatus (sampleId "a" 0) .completed,
          .scheduleTeam sampleAgents "again", .advanceSequential sampleAgents "again"]) := by
  intro h
  exact absurd h.oneLive (by decide +kernel)

end Vexcoder.Subtask

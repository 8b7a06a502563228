import Vexcoder.Base.Reader
import Vexcoder.Task.State

/-!
# Reading a state file

The readers that are derived for `TaskState` and what it holds, and for the header that is read in its
place where the id and the session tasks are enough.  The header knows no alias and takes of a session
task two fields: it agrees with the full state exactly when the file is plain (`header_agrees_iff`).
-/

namespace Vexcoder.Task

open Base
open Base.Reader
open Vexcoder.Runtime

def SessionTaskStatus.read : Reader SessionTaskStatus :=
  variant [("Pending", .pending), ("Running", .running), ("Blocked", .blocked),
    ("Failed", .failed), ("Cancelled", .cancelled), ("Completed", .completed)]

def sessionTaskFields : List (List String) :=
  [["id"], ["parent_task_id"], ["agent_id"], ["prompt"], ["lifecycle_state"], ["worktree_path"],
    ["started_at"], ["updated_at"], ["last_heartbeat"], ["handoff_summary"], ["supersedes"]]

def SessionTask.read (value : Value) : Option SessionTask := do
  let [id, parentTaskId, agentId, prompt, lifecycleState, worktreePath, startedAt, updatedAt,
      lastHeartbeat, handoffSummary, supersedes] ← readFields sessionTaskFields value
    | none
  some {
    id := ← required string id
    parentTaskId := ← required string parentTaskId
    agentId := ← required string agentId
    prompt := ← required string prompt
    lifecycleState := ← required SessionTaskStatus.read lifecycleState
    worktreePath := ← defaulted none (nullable string) worktreePath
    startedAt := ← defaulted none (nullable u64) startedAt
    updatedAt := ← defaulted 0 u64 updatedAt
    lastHeartbeat := ← defaulted none (nullable u64) lastHeartbeat
    handoffSummary := ← defaulted none (nullable string) handoffSummary
    supersedes := ← defaulted [] (list string) supersedes }

def TaskStatus.read : Reader TaskStatus :=
  variant [("Ready", .ready), ("Running", .running), ("AwaitingApproval", .awaitingApproval),
    ("Cancelling", .cancelling), ("Completed", .completed), ("Failed", .failed),
    ("Cancelled", .cancelled), ("MaxTurnsReached", .maxTurnsReached)]

def capabilityNames : List (String × Capability) :=
  [("ReadFile", .readFile), ("WriteFile", .writeFile), ("ApplyPatch", .applyPatch),
    ("RunCommand", .runCommand), ("McpTool", .mcpTool), ("Network", .network),
    ("Browser", .browser)]

def ApprovalScope.read : Reader ApprovalScope :=
  variant [("Once", .once), ("Task", .task), ("Session", .session)]

/-- A hash map; of a repeated key the last value stays. -/
def readGrants : Reader (List (Capability × ApprovalScope))
  | .object members => do
    let grants ← members.mapM fun member => do
      some (← capabilityNames.lookup member.1, ← ApprovalScope.read member.2)
    some (grants.foldl (fun m grant => Lib.Assoc.insertLast grant.1 grant.2 m) [])
  | _ => none

def CommandEvidence.read (value : Value) : Option CommandEvidence := do
  let [program, exitCode, interrupted] ←
    readFields [["program"], ["exit_code"], ["interrupted"]] value | none
  some {
    program := ← required string program
    exitCode := ← defaulted none (nullable i32) exitCode
    interrupted := ← required bool interrupted }

def ConversationCheckpoint.read (value : Value) : Option ConversationCheckpoint := do
  let [messageCount, summary] ← readFields [["message_count"], ["summary"]] value | none
  some { messageCount := ← required u64 messageCount, summary := ← required string summary }

def InterruptedCommand.read (value : Value) : Option InterruptedCommand := do
  let [program, interruptedAt] ← readFields [["program"], ["interrupted_at"]] value | none
  some { program := ← required string program, interruptedAt := ← required string interruptedAt }

def SessionNote.read (value : Value) : Option SessionNote := do
  let [content, createdAtTurn] ← readFields [["content"], ["created_at_turn"]] value | none
  some { content := ← required string content, createdAtTurn := ← required u64 createdAtTurn }

def ContextCompactionRecord.read (value : Value) : Option ContextCompactionRecord := do
  let [turnIndex, messagesBefore, messagesAfter, summary] ←
    readFields [["turn_index"], ["messages_before"], ["messages_after"], ["summary"]] value | none
  some {
    turnIndex := ← required u64 turnIndex
    messagesBefore := ← required u64 messagesBefore
    messagesAfter := ← required u64 messagesAfter
    summary := ← required string summary }

def CacheUsageStats.read (value : Value) : Option CacheUsageStats := do
  let [totalCacheCreationTokens, totalCacheReadTokens] ←
    readFields [["total_cache_creation_tokens"], ["total_cache_read_tokens"]] value | none
  some {
    totalCacheCreationTokens := ← required u64 totalCacheCreationTokens
    totalCacheReadTokens := ← required u64 totalCacheReadTokens }

def ToolInvocationSummary.read (value : Value) : Option ToolInvocationSummary := do
  let [stepId, name, outcome] ← readFields [["step_id"], ["name"], ["outcome"]] value | none
  some {
    stepId := ← defaulted 0 u64 stepId
    name := ← required string name
    outcome := ← required string outcome }

def readTokens (value : Value) : Option PulseTokens := do
  let [input, output, estimated, cacheCreationInputTokens, cacheReadInputTokens] ←
    readFields
      [["input"], ["output"], ["estimated"], ["cache_creation_input_tokens"],
        ["cache_read_input_tokens"]] value
    | none
  some {
    input := ← required u64 input
    output := ← required u64 output
    estimated := ← defaulted false bool estimated
    cacheCreationInputTokens := ← defaulted 0 u64 cacheCreationInputTokens
    cacheReadInputTokens := ← defaulted 0 u64 cacheReadInputTokens }

def TurnEvidenceState.read (value : Value) : Option TurnEvidenceState := do
  let [input, response, changedFiles, commandHistory, toolInvocations, tokens] ←
    readFields
      [["input"], ["response"], ["changed_files"], ["command_history"], ["tool_invocations"],
        ["tokens"]] value
    | none
  some {
    input := ← required string input
    response := ← required string response
    changedFiles := ← defaulted [] (list string) changedFiles
    commandHistory := ← defaulted [] (list CommandEvidence.read) commandHistory
    toolInvocations := ← defaulted [] (list ToolInvocationSummary.read) toolInvocations
    tokens := ← defaulted {} readTokens tokens }

def taskStateFields : List (List String) :=
  [["id"], ["status"], ["parent_task_id"], ["agent_id"], ["worktree_path"], ["started_at"],
    ["updated_at"], ["last_heartbeat"], ["handoff_summary"], ["active_grants"],
    ["changed_files"], ["command_history"], ["conversation_snapshot"],
    ["interrupted_sessions"], ["branch_name"], ["instructions_path"], ["pulses"], ["plan"],
    ["session_notes"], ["context_compaction"], ["cache_usage"],
    ["session_tasks", "child_tasks"]]

def TaskState.read (value : Value) : Option TaskState := do
  let [id, status, parentTaskId, agentId, worktreePath, startedAt, updatedAt, lastHeartbeat,
      handoffSummary, activeGrants, changedFiles, commandHistory, conversationSnapshot,
      interruptedSessions, branchName, instructionsPath, pulses, plan, sessionNotes,
      contextCompaction, cacheUsage, sessionTasks] ← readFields taskStateFields value
    | none
  some {
    id := ← required string id
    status := ← required TaskStatus.read status
    parentTaskId := ← defaulted none (nullable string) parentTaskId
    agentId := ← defaulted none (nullable string) agentId
    worktreePath := ← defaulted none (nullable string) worktreePath
    startedAt := ← defaulted none (nullable u64) startedAt
    updatedAt := ← defaulted 0 u64 updatedAt
    lastHeartbeat := ← defaulted none (nullable u64) lastHeartbeat
    handoffSummary := ← defaulted none (nullable string) handoffSummary
    activeGrants := ← required readGrants activeGrants
    changedFiles := ← required (list string) changedFiles
    commandHistory := ← required (list CommandEvidence.read) commandHistory
    conversationSnapshot := ← required ConversationCheckpoint.read conversationSnapshot
    interruptedSessions := ← required (list InterruptedCommand.read) interruptedSessions
    branchName := ← defaulted none (nullable string) branchName
    instructionsPath := ← defaulted none (nullable string) instructionsPath
    pulses := ← defaulted [] (list TurnEvidenceState.read) pulses
    plan := ← defaulted none (nullable string) plan
    sessionNotes := ← defaulted [] (list SessionNote.read) sessionNotes
    contextCompaction := ← defaulted [] (list ContextCompactionRecord.read) contextCompaction
    cacheUsage := ← defaulted {} CacheUsageStats.read cacheUsage
    sessionTasks := ← defaulted [] (list SessionTask.read) sessionTasks }

/-- `TaskState::load` of the value in the file; `now` is the clock. -/
def TaskState.load (value : Value) (now : ℕ) : Option TaskState :=
  (TaskState.read value).bind fun state => state.normalize now

/-! ### The header -/

structure SessionTaskSummary where
  agentId : String
  status : SessionTaskStatus

def SessionTaskSummary.read (value : Value) : Option SessionTaskSummary := do
  let [agentId, status] ← readFields [["agent_id"], ["lifecycle_state"]] value | none
  some {
    agentId := ← required string agentId
    status := ← required SessionTaskStatus.read status }

structure TaskStateHeader where
  id : String
  modifiedMillis : ℕ
  sessionTasks : Option (List SessionTaskSummary)

def TaskStateHeader.read (value : Value) : Option TaskStateHeader := do
  let [id, modifiedMillis, sessionTasks] ←
    readFields [["id"], ["updated_at"], ["session_tasks"]] value | none
  some {
    id := ← required string id
    modifiedMillis := ← defaulted 0 u64 modifiedMillis
    sessionTasks := ← defaulted none (nullable (list SessionTaskSummary.read)) sessionTasks }

/-! ### Which files the header reads as the state is read -/

def SessionTask.summary (task : SessionTask) : SessionTaskSummary :=
  { agentId := task.agentId, status := task.lifecycleState }

def TaskStateHeader.summaries (header : TaskStateHeader) : List SessionTaskSummary :=
  header.sessionTasks.getD []

/-- The header of the file has the id and the session tasks of the state. -/
def HeaderAgrees (value : Value) (state : TaskState) : Prop :=
  ∃ header, TaskStateHeader.read value = some header ∧ header.id = state.id ∧
    header.summaries = state.sessionTasks.map SessionTask.summary

/-- A record by key, also for each session task, with no session task under the old name. -/
def PlainFile : Value → Prop
  | .object members =>
    (∀ value, ("child_tasks", value) ∈ members → value = .array []) ∧
      ∀ items, ("session_tasks", .array items) ∈ members → ∀ item ∈ items,
        ∃ fields, item = .object fields
  | _ => False

variable {value : Value} {members : List (String × Value)} {items : List Value}

variable {state : TaskState} {task : SessionTask}

theorem TaskState.normalize_keeps {state' : TaskState} {now : ℕ} (h : state.normalize now = some state') :
    state'.id = state.id ∧ state'.sessionTasks = state.sessionTasks := by
  obtain ⟨pulses, -, h⟩ := Option.bind_eq_some_iff.mp h
  cases h
  exact ⟨rfl, rfl⟩

theorem SessionTask.read_fields (h : SessionTask.read value = some task) :
    ∃ values, readFields sessionTaskFields value = some values ∧
      required string values[2]?.join = some task.agentId ∧
      required SessionTaskStatus.read values[4]?.join = some task.lifecycleState := by
  obtain ⟨values, hvalues, h⟩ := Option.bind_eq_some_iff.mp h
  refine ⟨values, hvalues, ?_⟩
  split at h
  · iterate 2 obtain ⟨_, -, h⟩ := Option.bind_eq_some_iff.mp h
    obtain ⟨agentId, hagentId, h⟩ := Option.bind_eq_some_iff.mp h
    obtain ⟨_, -, h⟩ := Option.bind_eq_some_iff.mp h
    obtain ⟨status, hstatus, h⟩ := Option.bind_eq_some_iff.mp h
    iterate 6 obtain ⟨_, -, h⟩ := Option.bind_eq_some_iff.mp h
    cases h
    exact ⟨hagentId, hstatus⟩
  · cases h

theorem TaskState.read_fields (h : TaskState.read value = some state) :
    ∃ values, readFields taskStateFields value = some values ∧
      required string values[0]?.join = some state.id ∧
      defaulted 0 u64 values[6]?.join = some state.updatedAt ∧
      required (list InterruptedCommand.read) values[13]?.join = some state.interruptedSessions ∧
      defaulted [] (list SessionTask.read) values[21]?.join = some state.sessionTasks := by
  obtain ⟨values, hvalues, h⟩ := Option.bind_eq_some_iff.mp h
  refine ⟨values, hvalues, ?_⟩
  split at h
  · obtain ⟨id, hid, h⟩ := Option.bind_eq_some_iff.mp h
    iterate 5 obtain ⟨_, -, h⟩ := Option.bind_eq_some_iff.mp h
    obtain ⟨updatedAt, hupdatedAt, h⟩ := Option.bind_eq_some_iff.mp h
    iterate 6 obtain ⟨_, -, h⟩ := Option.bind_eq_some_iff.mp h
    obtain ⟨interruptedSessions, hinterrupted, h⟩ := Option.bind_eq_some_iff.mp h
    iterate 7 obtain ⟨_, -, h⟩ := Option.bind_eq_some_iff.mp h
    obtain ⟨sessionTasks, hsessionTasks, h⟩ := Option.bind_eq_some_iff.mp h
    cases h
    exact ⟨hid, hupdatedAt, hinterrupted, hsessionTasks⟩
  · cases h

/-- A record with more items than fields is refused. -/
theorem SessionTaskSummary.read_array (h : SessionTask.read (.array items) = some task) :
    SessionTaskSummary.read (.array items) = none := by
  obtain ⟨values, hvalues, -, hstatus⟩ := SessionTask.read_fields h
  have hitem : items[4]? ≠ none := by
    have hfour := (readFields_array hvalues).2 4 (by decide)
    rw [hfour] at hstatus
    intro hnone
    rw [hnone] at hstatus
    cases hstatus
  have hlength : 4 < items.length := by
    rwa [Ne, List.getElem?_eq_none_iff, Nat.not_le] at hitem
  have hrefused : readFields [["agent_id"], ["lifecycle_state"]] (.array items) = none := by
    rw [readFields, if_neg]
    exact Nat.not_le.mpr (Nat.lt_trans (by decide) hlength)
  rw [SessionTaskSummary.read, hrefused]
  rfl

theorem SessionTaskSummary.read_object (h : SessionTask.read (.object members) = some task) :
    SessionTaskSummary.read (.object members) = some task.summary := by
  obtain ⟨values, hvalues, hagent, hstatus⟩ := SessionTask.read_fields h
  obtain ⟨honce, rfl⟩ := readFields_object.mp hvalues
  have hfields : readFields [["agent_id"], ["lifecycle_state"]] (.object members) =
      some [(members.find? fun member => member.1 ∈ ["agent_id"]).map Prod.snd,
        (members.find? fun member => member.1 ∈ ["lifecycle_state"]).map Prod.snd] := by
    refine readFields_object.mpr ⟨fun names hnames => honce names ?_, rfl⟩
    obtain rfl | hnames := List.mem_cons.mp hnames
    · decide
    · obtain rfl := List.mem_singleton.mp hnames
      decide
  rw [SessionTaskSummary.read, hfields]
  simp only [sessionTaskFields, List.map_cons, List.getElem?_cons_succ, List.getElem?_cons_zero,
    Option.join_some] at hagent hstatus
  simp only [Option.bind_eq_bind, Option.bind_some, hagent, hstatus]
  rfl

/-- **The header takes a session task exactly when it is given by key.** -/
theorem SessionTaskSummary.read_iff (h : SessionTask.read value = some task) :
    SessionTaskSummary.read value = some task.summary ↔ ∃ members, value = .object members := by
  constructor
  · intro hsummary
    cases value with
    | object members => exact ⟨members, rfl⟩
    | array items =>
      rw [SessionTaskSummary.read_array h] at hsummary
      cases hsummary
    | _ => cases hsummary
  · rintro ⟨members, rfl⟩
    exact SessionTaskSummary.read_object h

theorem TaskStateHeader.read_array (h : TaskState.read (.array items) = some state) :
    TaskStateHeader.read (.array items) = none := by
  obtain ⟨values, hvalues, -, -, hinterrupted, -⟩ := TaskState.read_fields h
  have hitem : items[13]? ≠ none := by
    rw [(readFields_array hvalues).2 13 (by decide)] at hinterrupted
    intro hnone
    rw [hnone] at hinterrupted
    cases hinterrupted
  have hlength : 13 < items.length := by
    rwa [Ne, List.getElem?_eq_none_iff, Nat.not_le] at hitem
  have hrefused :
      readFields [["id"], ["updated_at"], ["session_tasks"]] (.array items) = none := by
    rw [readFields, if_neg]
    exact Nat.not_le.mpr (Nat.lt_trans (by decide) hlength)
  rw [TaskStateHeader.read, hrefused]
  rfl

def readSummaries (value : Option Value) : Option (Option (List SessionTaskSummary)) :=
  defaulted none (nullable (list SessionTaskSummary.read)) value

/-- Of a state given by key the header has the id, and the session tasks it finds under its own name. -/
theorem TaskStateHeader.read_object (h : TaskState.read (.object members) = some state) :
    ∃ modifiedMillis, TaskStateHeader.read (.object members) =
      (readSummaries ((members.find? fun member => member.1 ∈ ["session_tasks"]).map Prod.snd)).map
        fun sessionTasks => { id := state.id, modifiedMillis, sessionTasks } := by
  obtain ⟨values, hvalues, hid, hupdated, -, -⟩ := TaskState.read_fields h
  obtain ⟨honce, rfl⟩ := readFields_object.mp hvalues
  have hsubset : ∀ member : String × Value, member.1 ∈ ["session_tasks"] →
      member.1 ∈ ["session_tasks", "child_tasks"] :=
    fun member hmember => List.mem_cons.mpr (.inl (List.mem_singleton.mp hmember))
  have hfields : readFields [["id"], ["updated_at"], ["session_tasks"]] (.object members) =
      some [(members.find? fun member => member.1 ∈ ["id"]).map Prod.snd,
        (members.find? fun member => member.1 ∈ ["updated_at"]).map Prod.snd,
        (members.find? fun member => member.1 ∈ ["session_tasks"]).map Prod.snd] := by
    refine readFields_object.mpr ⟨fun names hnames => ?_, rfl⟩
    simp only [List.mem_cons, List.not_mem_nil, or_false] at hnames
    obtain rfl | rfl | rfl := hnames
    · exact honce ["id"] (by decide)
    · exact honce ["updated_at"] (by decide)
    · refine Nat.le_trans (List.Sublist.length_le ?_) (honce ["session_tasks", "child_tasks"]
        (by decide))
      refine List.monotone_filter_right members fun member hmember => ?_
      exact decide_eq_true (hsubset member (of_decide_eq_true hmember))
  refine ⟨state.updatedAt, ?_⟩
  simp only [taskStateFields, List.map_cons, List.getElem?_cons_succ, List.getElem?_cons_zero,
    Option.join_some] at hid hupdated
  rw [TaskStateHeader.read, hfields]
  simp only [Option.bind_eq_bind, Option.bind_some, hid, hupdated]
  exact Option.map_eq_bind.symm

theorem readSummaries_items {tasks : List SessionTask} (h : items.mapM SessionTask.read = some tasks) :
    (∃ summaries, readSummaries (some (.array items)) = some summaries ∧
        summaries.getD [] = tasks.map SessionTask.summary) ↔
      ∀ item ∈ items, ∃ fields, item = .object fields := by
  constructor
  · rintro ⟨summaries, hsummaries, -⟩ item hitem
    obtain ⟨task, -, htask⟩ := mapM_reads h hitem
    obtain ⟨read, hread, -⟩ := Option.map_eq_some_iff.mp hsummaries
    obtain ⟨summary, -, hsummary⟩ := @mapM_reads _ SessionTaskSummary.read _ _ hread _ hitem
    cases item with
    | object fields => exact ⟨fields, rfl⟩
    | array fields =>
      rw [SessionTaskSummary.read_array htask] at hsummary
      cases hsummary
    | _ => cases hsummary
  · intro hplain
    refine ⟨some (tasks.map SessionTask.summary), ?_, rfl⟩
    refine Option.map_eq_some_iff.mpr ⟨tasks.map SessionTask.summary, ?_, rfl⟩
    exact mapM_map h fun item hitem task htask =>
      (SessionTaskSummary.read_iff htask).mpr (hplain item hitem)

/-- The member that a state takes its session tasks from. -/
def sessionTasksMember (members : List (String × Value)) : Option (String × Value) :=
  members.find? fun member => member.1 ∈ ["session_tasks", "child_tasks"]

def SessionTasksOnce (members : List (String × Value)) : Prop :=
  (members.filter fun member => member.1 ∈ ["session_tasks", "child_tasks"]).length ≤ 1

theorem sessionTasksMember_same (h : SessionTasksOnce members) {name name' : String}
    {value value' : Value} (hfound : sessionTasksMember members = some (name, value))
    (hmember : (name', value') ∈ members) (hname : name' ∈ ["session_tasks", "child_tasks"]) :
    name = name' ∧ value = value' := by
  have hsame : sessionTasksMember members = some (name', value') :=
    find?_of_filter_length h hmember (decide_eq_true hname)
  rw [hfound] at hsame
  exact Prod.mk.inj (Option.some.inj hsame)

theorem plainFile_unlisted (hfound : sessionTasksMember members = none) : PlainFile (.object members) := by
  have hnone := List.find?_eq_none.mp hfound
  refine ⟨fun value hvalue => absurd ?_ (hnone _ hvalue), fun items hitems =>
    absurd ?_ (hnone _ hitems)⟩
  · exact decide_eq_true (List.mem_cons_of_mem _ List.mem_cons_self)
  · exact decide_eq_true List.mem_cons_self

theorem plainFile_listed (h : SessionTasksOnce members)
    (hfound : sessionTasksMember members = some ("session_tasks", .array items)) :
    PlainFile (.object members) ↔ ∀ item ∈ items, ∃ fields, item = .object fields := by
  constructor
  · exact fun hplain => hplain.2 items (List.mem_of_find?_eq_some hfound)
  · intro hplain
    refine ⟨fun value hvalue => ?_, fun items' hitems' => ?_⟩
    · exact absurd (sessionTasksMember_same h hfound hvalue (by decide)).1 (by decide)
    · cases (sessionTasksMember_same h hfound hitems' (by decide)).2
      exact hplain

theorem plainFile_formerlyListed (h : SessionTasksOnce members)
    (hfound : sessionTasksMember members = some ("child_tasks", .array items)) :
    PlainFile (.object members) ↔ items = [] := by
  constructor
  · exact fun hplain => Value.array.inj (hplain.1 _ (List.mem_of_find?_eq_some hfound))
  · rintro rfl
    refine ⟨fun value hvalue => ?_, fun items' hitems' => ?_⟩
    · exact (sessionTasksMember_same h hfound hvalue (by decide)).2.symm
    · exact absurd (sessionTasksMember_same h hfound hitems' (by decide)).1 (by decide)

/-- The header has what the state has, but for the member that it knows under one name only. -/
theorem headerAgrees_object (h : TaskState.read (.object members) = some state) :
    HeaderAgrees (.object members) state ↔
      ∃ summaries, readSummaries
          ((members.find? fun member => member.1 ∈ ["session_tasks"]).map Prod.snd) =
            some summaries ∧
        summaries.getD [] = state.sessionTasks.map SessionTask.summary := by
  obtain ⟨modifiedMillis, hheader⟩ := TaskStateHeader.read_object h
  rw [HeaderAgrees, hheader]
  constructor
  · rintro ⟨header, hread, -, hsummaries⟩
    obtain ⟨summaries, hfound, rfl⟩ := Option.map_eq_some_iff.mp hread
    exact ⟨summaries, hfound, hsummaries⟩
  · rintro ⟨summaries, hread, hsummaries⟩
    exact ⟨_, Option.map_eq_some_iff.mpr ⟨summaries, hread, rfl⟩, rfl, hsummaries⟩

theorem headerAgrees_object_iff (h : TaskState.read (.object members) = some state) :
    HeaderAgrees (.object members) state ↔ PlainFile (.object members) := by
  obtain ⟨values, hvalues, -, -, -, htasks⟩ := TaskState.read_fields h
  obtain ⟨honce, rfl⟩ := readFields_object.mp hvalues
  have hone : SessionTasksOnce members := honce ["session_tasks", "child_tasks"] (by decide)
  have htasks : defaulted [] (list SessionTask.read)
      ((sessionTasksMember members).map Prod.snd) = some state.sessionTasks := htasks
  have hnames : ∀ member : String × Value, decide (member.1 ∈ ["session_tasks"]) = true →
      decide (member.1 ∈ ["session_tasks", "child_tasks"]) = true := fun member hmember =>
    decide_eq_true (List.mem_cons.mpr (.inl (List.mem_singleton.mp (of_decide_eq_true hmember))))
  rw [headerAgrees_object h]
  cases hfound : sessionTasksMember members with
  | none =>
    rw [hfound] at htasks
    have hnil : [] = state.sessionTasks := Option.some.inj htasks
    have hnone : members.find? (fun member => member.1 ∈ ["session_tasks"]) = none :=
      List.find?_eq_none.mpr fun member hmember hname =>
        List.find?_eq_none.mp hfound member hmember (hnames member hname)
    rw [hnone, ← hnil]
    exact ⟨fun _ => plainFile_unlisted hfound, fun _ => ⟨none, rfl, rfl⟩⟩
  | some found =>
    obtain ⟨name, value⟩ := found
    rw [hfound] at htasks
    obtain ⟨items, rfl, hitems⟩ := list_eq_some htasks
    have hname : name ∈ ["session_tasks", "child_tasks"] :=
      of_decide_eq_true (List.find?_some (p := fun member : String × Value =>
        decide (member.1 ∈ ["session_tasks", "child_tasks"])) hfound)
    rw [find?_narrow hnames hone hfound]
    obtain rfl | hname := List.mem_cons.mp hname
    · rw [if_pos (decide_eq_true (List.mem_singleton.mpr rfl)), plainFile_listed hone hfound]
      exact readSummaries_items hitems
    · obtain rfl := List.mem_singleton.mp hname
      have hunknown : ¬ "child_tasks" = "session_tasks" := by decide
      rw [if_neg fun hname => hunknown (List.mem_singleton.mp (of_decide_eq_true hname)),
        plainFile_formerlyListed hone hfound]
      constructor
      · rintro ⟨summaries, hsummaries, hempty⟩
        cases hsummaries
        rw [List.map_eq_nil_iff.mp hempty.symm] at hitems
        exact mapM_nil hitems
      · rintro rfl
        have hnil : [] = state.sessionTasks := Option.some.inj hitems
        rw [← hnil]
        exact ⟨none, rfl, rfl⟩

/-- **A file that can be loaded has a header that agrees with the state exactly when it is plain.** -/
theorem header_agrees_iff {now : ℕ} (h : TaskState.load value now = some state) :
    HeaderAgrees value state ↔ PlainFile value := by
  obtain ⟨read, hread, hnormalize⟩ := Option.bind_eq_some_iff.mp h
  obtain ⟨hid, htasks⟩ := TaskState.normalize_keeps hnormalize
  rw [HeaderAgrees, hid, htasks]
  cases value with
  | object members => exact headerAgrees_object_iff hread
  | array items =>
    refine ⟨?_, False.elim⟩
    rintro ⟨header, hheader, -⟩
    rw [TaskStateHeader.read_array hread] at hheader
    cases hheader
  | _ => cases hread

end Vexcoder.Task

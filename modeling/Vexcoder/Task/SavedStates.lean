import Vexcoder.Task.HeaderCache

/-!
# Questions about all saved states

Two questions are answered from the headers of the listed files: how many live session tasks each agent
has, and which state has a session task.  The second loads only the files whose header admits that the
task is theirs, by the form of its id, and gives up at the first of these that cannot be loaded.  Both
answers are those of the loaded states, in every disk and after any lookups, exactly under the
conditions of `headerPath_refines_iff`.
-/

namespace Vexcoder.Task

open Base
open Lib TaskState

/-! ### Counting the live session tasks -/

def countLive (counts : List (String × ℕ)) (task : SessionTaskSummary) : List (String × ℕ) :=
  if task.status.isLive then
    Assoc.insertLast task.agentId ((Assoc.find? task.agentId counts).getD 0 + 1) counts
  else counts

def countListed (disk : Disk) (cache : HeaderLruCache) (counts : List (String × ℕ)) :
    List TaskStateFile → HeaderLruCache × List (String × ℕ)
  | [] => (cache, counts)
  | file :: rest =>
    match cachedTaskHeader disk cache file.path with
    | (cache, some header) => countListed disk cache (header.summaries.foldl countLive counts) rest
    | (cache, none) => countListed disk cache counts rest

def liveSessionTaskCountsFrom (disk : Disk) (dirs : List String) (cap : ℕ)
    (cache : HeaderLruCache) : Option (HeaderLruCache × List (String × ℕ)) :=
  (stateFilesFromWithLimit disk dirs cap).map (countListed disk cache [])

/-- The session tasks of the loaded file, none where it cannot be loaded. -/
def loadedSummaries (disk : Disk) (now : ℕ) (file : TaskStateFile) : List SessionTaskSummary :=
  match TaskState.loadFrom disk now file.path with
  | some state => state.sessionTasks.map SessionTask.summary
  | none => []

/-- The count over the states themselves. -/
def liveCountsLoaded (disk : Disk) (dirs : List String) (cap now : ℕ) : List (String × ℕ) :=
  ((scannedFiles disk dirs cap).flatMap (loadedSummaries disk now)).foldl countLive []

/-! ### Finding a session task -/

/-- Ids that were given to the tasks of a state begin with its id and that of their agent. -/
def isCandidate (header : TaskStateHeader) (sessionTaskId : String) : Bool :=
  match header.sessionTasks with
  | none => true
  | some tasks => tasks.any fun task =>
      Text.startsWith sessionTaskId (header.id ++ "-" ++ task.agentId ++ "-")

/-- `none` when a state could not be loaded. -/
def findListed (disk : Disk) (now : ℕ) (sessionTaskId : String) (cache : HeaderLruCache) :
    List TaskStateFile → HeaderLruCache × Option (Option (TaskState × SessionTask))
  | [] => (cache, some none)
  | file :: rest =>
    match cachedTaskHeader disk cache file.path with
    | (cache, none) => findListed disk now sessionTaskId cache rest
    | (cache, some header) =>
      if !isCandidate header sessionTaskId then findListed disk now sessionTaskId cache rest
      else match TaskState.loadFrom disk now file.path with
        | none => (cache, none)
        | some state =>
          match state.sessionTask sessionTaskId with
          | some task => (cache, some (some (state, task)))
          | none => findListed disk now sessionTaskId cache rest

def findSessionTaskInSavedStates (disk : Disk) (dirs : List String) (cap now : ℕ)
    (cache : HeaderLruCache) (sessionTaskId : String) :
    Option (HeaderLruCache × Option (Option (TaskState × SessionTask))) :=
  (stateFilesFromWithLimit disk dirs cap).map (findListed disk now sessionTaskId cache)

/-! ### What the counts are -/

variable {disk : Disk} {cache : HeaderLruCache} {dirs : List String} {cap now : ℕ}
  {files : List TaskStateFile} {sessionTaskId : String}

/-- The session tasks of the file by its header. -/
def headerSummaries (disk : Disk) (file : TaskStateFile) : List SessionTaskSummary :=
  match TaskStateHeader.fromPath disk file.path with
  | some header => header.summaries
  | none => []

def isLiveOf (agentId : String) (task : SessionTaskSummary) : Bool :=
  task.status.isLive && task.agentId == agentId

theorem countListed_eq (h : cache.Honest disk) (counts : List (String × ℕ)) :
    (countListed disk cache counts files).2 =
      (files.flatMap (headerSummaries disk)).foldl countLive counts := by
  induction files generalizing cache counts with
  | nil => rfl
  | cons file rest ih =>
    obtain ⟨hheader, hhonest⟩ := @cachedTaskHeader_honest _ _ file.path h
    rw [countListed, List.flatMap_cons, List.foldl_append, headerSummaries, ← hheader]
    split
    · rename_i cache' header heq
      rw [heq] at hhonest ⊢
      exact ih hhonest _
    · rename_i cache' heq
      rw [heq] at hhonest ⊢
      exact ih hhonest _

theorem countLive_foldl (agentId : String) (tasks : List SessionTaskSummary)
    {counts : List (String × ℕ)} (h : Assoc.find? agentId counts ≠ some 0) :
    let counts' := tasks.foldl countLive counts
    (Assoc.find? agentId counts').getD 0 =
        (Assoc.find? agentId counts).getD 0 + tasks.countP (isLiveOf agentId) ∧
      Assoc.find? agentId counts' ≠ some 0 := by
  induction tasks generalizing counts with
  | nil => exact ⟨rfl, h⟩
  | cons task tasks ih =>
    have hstep : (Assoc.find? agentId (countLive counts task)).getD 0 =
          (Assoc.find? agentId counts).getD 0 + (if isLiveOf agentId task then 1 else 0) ∧
        Assoc.find? agentId (countLive counts task) ≠ some 0 := by
      rw [countLive, isLiveOf]
      cases task.status.isLive with
      | false => exact ⟨rfl, h⟩
      | true =>
        rw [if_pos rfl, Assoc.find?_insertLast, Bool.true_and]
        by_cases hagent : agentId = task.agentId
        · rw [if_pos hagent, ← hagent, if_pos (beq_self_eq_true agentId)]
          exact ⟨rfl, fun hzero => nomatch hzero⟩
        · rw [if_neg hagent, if_neg fun hsame => hagent (beq_iff_eq.mp hsame).symm]
          exact ⟨rfl, h⟩
    obtain ⟨hcount, hzero⟩ := ih hstep.2
    refine ⟨?_, hzero⟩
    rw [List.foldl_cons, hcount, List.countP_cons]
    omega

theorem countLive_eq_iff (agentId : String) (tasks tasks' : List SessionTaskSummary) :
    Assoc.find? agentId (tasks.foldl countLive []) = Assoc.find? agentId (tasks'.foldl countLive []) ↔
      tasks.countP (isLiveOf agentId) = tasks'.countP (isLiveOf agentId) := by
  have hempty : Assoc.find? agentId ([] : List (String × ℕ)) ≠ some 0 := fun hzero => nomatch hzero
  obtain ⟨hcount, hzero⟩ := countLive_foldl agentId tasks hempty
  obtain ⟨hcount', hzero'⟩ := countLive_foldl agentId tasks' hempty
  rw [← Nat.zero_add (tasks.countP _), ← Nat.zero_add (tasks'.countP _)]
  refine Iff.trans ?_ (Eq.congr hcount hcount')
  generalize Assoc.find? agentId (tasks.foldl countLive []) = found at hzero ⊢
  generalize Assoc.find? agentId (tasks'.foldl countLive []) = found' at hzero' ⊢
  constructor
  · rintro rfl
    rfl
  · intro heq
    cases found with
    | none =>
      cases found' with
      | none => rfl
      | some n' => exact absurd (congrArg some heq.symm) hzero'
    | some n =>
      cases found' with
      | none => exact absurd (congrArg some heq) hzero
      | some n' => exact congrArg some heq

section Lists

variable {α β : Type} {p : β → Bool} {f g : α → List β} {l : List α}

theorem countP_flatMap_le (h : ∀ a ∈ l, (g a).countP p ≤ (f a).countP p) :
    (l.flatMap g).countP p ≤ (l.flatMap f).countP p := by
  induction l with
  | nil => exact Nat.le_refl _
  | cons a l ih =>
    rw [List.flatMap_cons, List.flatMap_cons, List.countP_append, List.countP_append]
    exact Nat.add_le_add (h a List.mem_cons_self) (ih fun b hb => h b (List.mem_cons_of_mem a hb))

theorem countP_flatMap_eq_iff (h : ∀ a ∈ l, (g a).countP p ≤ (f a).countP p) :
    (l.flatMap f).countP p = (l.flatMap g).countP p ↔ ∀ a ∈ l, (f a).countP p = (g a).countP p := by
  induction l with
  | nil => exact ⟨nofun, fun _ => rfl⟩
  | cons a l ih =>
    have htail : ∀ b ∈ l, (g b).countP p ≤ (f b).countP p :=
      fun b hb => h b (List.mem_cons_of_mem a hb)
    have hle := countP_flatMap_le htail
    have hhead := h a List.mem_cons_self
    rw [List.flatMap_cons, List.flatMap_cons, List.countP_append, List.countP_append,
      List.forall_mem_cons, ← ih htail]
    omega

end Lists

/-- Each file that cannot be loaded has a header without a live task. -/
def RefusedAreIdle (disk : Disk) (now : ℕ) (files : List TaskStateFile) : Prop :=
  ∀ file ∈ files, TaskState.loadFrom disk now file.path = none →
    ∀ task ∈ headerSummaries disk file, task.status.isLive = false

/-- The header of each file that can be loaded has the session tasks of the state. -/
def HeadersAgree (disk : Disk) (now : ℕ) : Prop :=
  ∀ path state, TaskState.loadFrom disk now path = some state →
    ∃ header, TaskStateHeader.fromPath disk path = some header ∧ header.id = state.id ∧
      header.summaries = state.sessionTasks.map SessionTask.summary

theorem headerSummaries_loaded (h : HeadersAgree disk now) {file : TaskStateFile}
    {state : TaskState} (hload : TaskState.loadFrom disk now file.path = some state) :
    headerSummaries disk file = loadedSummaries disk now file := by
  obtain ⟨header, hheader, -, hsummaries⟩ := h file.path state hload
  rw [headerSummaries, loadedSummaries, hheader, hload]
  exact hsummaries

/-- **Where the headers agree, only files that cannot be loaded are counted in excess.** -/
theorem liveCounts_eq_iff (h : cache.Honest disk) (hagree : HeadersAgree disk now) :
    (∀ agentId, Assoc.find? agentId (countListed disk cache [] files).2 =
        Assoc.find? agentId ((files.flatMap (loadedSummaries disk now)).foldl countLive [])) ↔
      RefusedAreIdle disk now files := by
  have hle : ∀ agentId, ∀ file ∈ files, (loadedSummaries disk now file).countP (isLiveOf agentId) ≤
      (headerSummaries disk file).countP (isLiveOf agentId) := by
    intro agentId file _
    cases hload : loadFrom disk now file.path with
    | none =>
      rw [loadedSummaries, hload]
      exact Nat.zero_le _
    | some state => rw [headerSummaries_loaded hagree hload]
  have hagent : ∀ agentId, Assoc.find? agentId (countListed disk cache [] files).2 =
        Assoc.find? agentId ((files.flatMap (loadedSummaries disk now)).foldl countLive []) ↔
      ∀ file ∈ files, (headerSummaries disk file).countP (isLiveOf agentId) =
        (loadedSummaries disk now file).countP (isLiveOf agentId) := by
    intro agentId
    rw [countListed_eq h, countLive_eq_iff, countP_flatMap_eq_iff (hle agentId)]
  simp only [hagent]
  constructor
  · intro hcounts file hfile hload task htask
    have hzero := hcounts task.agentId file hfile
    rw [loadedSummaries, hload, List.countP_nil, List.countP_eq_zero] at hzero
    have hnot := hzero task htask
    rwa [isLiveOf, beq_self_eq_true, Bool.and_true, Bool.not_eq_true] at hnot
  · intro hidle agentId file hfile
    cases hload : loadFrom disk now file.path with
    | none =>
      rw [loadedSummaries, hload, List.countP_nil, List.countP_eq_zero]
      intro task htask
      rw [isLiveOf, hidle file hfile hload task htask]
      exact Bool.false_ne_true
    | some state => rw [headerSummaries_loaded hagree hload]

/-! ### What is found -/

/-- The header of the file admits that the task is one of its own. -/
def Admits (disk : Disk) (sessionTaskId : String) (file : TaskStateFile) : Prop :=
  ∃ header, TaskStateHeader.fromPath disk file.path = some header ∧ isCandidate header sessionTaskId = true

def HasTask (disk : Disk) (now : ℕ) (sessionTaskId : String) (file : TaskStateFile) : Prop :=
  ∃ state, TaskState.loadFrom disk now file.path = some state ∧ (state.sessionTask sessionTaskId).isSome

/-- Some file has the task and admits it, and no file before it is admitted and cannot be loaded. -/
def Reached (disk : Disk) (now : ℕ) (sessionTaskId : String) (files : List TaskStateFile) : Prop :=
  ∃ before file after, files = before ++ file :: after ∧ Admits disk sessionTaskId file ∧
    HasTask disk now sessionTaskId file ∧
    ∀ earlier ∈ before, Admits disk sessionTaskId earlier → (TaskState.loadFrom disk now earlier.path).isSome

theorem reached_cons {file : TaskStateFile} :
    Reached disk now sessionTaskId (file :: files) ↔
      (Admits disk sessionTaskId file ∧ HasTask disk now sessionTaskId file) ∨
        ((Admits disk sessionTaskId file → (TaskState.loadFrom disk now file.path).isSome) ∧
          Reached disk now sessionTaskId files) := by
  constructor
  · rintro ⟨before, found, after, heq, hadmits, htask, hbefore⟩
    cases before with
    | nil =>
      cases heq
      exact .inl ⟨hadmits, htask⟩
    | cons first before =>
      obtain ⟨rfl, rfl⟩ := List.cons.inj heq
      refine .inr ⟨hbefore file List.mem_cons_self, before, found, after, rfl, hadmits, htask, ?_⟩
      exact fun earlier hearlier => hbefore earlier (List.mem_cons_of_mem file hearlier)
  · rintro (⟨hadmits, htask⟩ | ⟨hloads, before, found, after, rfl, hadmits, htask, hbefore⟩)
    · exact ⟨[], file, files, rfl, hadmits, htask, nofun⟩
    · exact ⟨file :: before, found, after, rfl, hadmits, htask, List.forall_mem_cons.mpr ⟨hloads, hbefore⟩⟩

theorem reached_cons_of_not_admits {file : TaskStateFile} (h : ¬ Admits disk sessionTaskId file) :
    Reached disk now sessionTaskId (file :: files) ↔ Reached disk now sessionTaskId files := by
  rw [reached_cons]
  constructor
  · rintro (⟨hadmits, -⟩ | ⟨-, hreached⟩)
    · exact absurd hadmits h
    · exact hreached
  · exact fun hreached => .inr ⟨fun hadmits => absurd hadmits h, hreached⟩

theorem reached_cons_of_refused {file : TaskStateFile} (h : Admits disk sessionTaskId file)
    (hload : TaskState.loadFrom disk now file.path = none) :
    ¬ Reached disk now sessionTaskId (file :: files) := by
  rw [reached_cons]
  rintro (⟨-, state, hstate, -⟩ | ⟨hloads, -⟩)
  · rw [hload] at hstate
    cases hstate
  · have hsome := hloads h
    rw [hload] at hsome
    cases hsome

theorem reached_cons_of_loaded {file : TaskStateFile} {state : TaskState} (h : Admits disk sessionTaskId file)
    (hload : TaskState.loadFrom disk now file.path = some state) :
    Reached disk now sessionTaskId (file :: files) ↔
      (state.sessionTask sessionTaskId).isSome ∨ Reached disk now sessionTaskId files := by
  have htask : HasTask disk now sessionTaskId file ↔ (state.sessionTask sessionTaskId).isSome := by
    constructor
    · rintro ⟨state', hstate', hsome⟩
      rw [hload] at hstate'
      cases hstate'
      exact hsome
    · exact fun hsome => ⟨state, hload, hsome⟩
  have hsome : (loadFrom disk now file.path).isSome := by rw [hload]; rfl
  rw [reached_cons, htask]
  exact or_congr (and_iff_right h) (and_iff_right fun _ => hsome)

/-- **A task is found exactly when it is reached.** -/
theorem findListed_iff (h : cache.Honest disk) :
    (∃ found, (findListed disk now sessionTaskId cache files).2 = some (some found)) ↔
      Reached disk now sessionTaskId files := by
  induction files generalizing cache with
  | nil =>
    refine ⟨?_, ?_⟩
    · rintro ⟨found, hfound⟩
      cases hfound
    · rintro ⟨before, file, after, heq, -⟩
      exact absurd heq.symm (List.append_ne_nil_of_right_ne_nil before (List.cons_ne_nil file after))
  | cons file rest ih =>
    obtain ⟨hheader, hhonest⟩ := @cachedTaskHeader_honest _ _ file.path h
    rw [findListed]
    split
    · rename_i cache' heq
      rw [heq] at hheader hhonest
      rw [ih hhonest, reached_cons_of_not_admits]
      rintro ⟨header, hread, -⟩
      rw [← hheader] at hread
      cases hread
    · rename_i cache' header heq
      rw [heq] at hheader hhonest
      have hadmits : Admits disk sessionTaskId file ↔ isCandidate header sessionTaskId = true := by
        constructor
        · rintro ⟨header', hread, hcandidate⟩
          rw [← hheader] at hread
          cases hread
          exact hcandidate
        · exact fun hcandidate => ⟨header, hheader.symm, hcandidate⟩
      cases hcandidate : isCandidate header sessionTaskId with
      | false =>
        rw [if_pos Bool.not_false, ih hhonest, reached_cons_of_not_admits]
        rw [hadmits, hcandidate]
        exact Bool.false_ne_true
      | true =>
        have hadmitted := hadmits.mpr hcandidate
        rw [if_neg (by decide)]
        cases hload : loadFrom disk now file.path with
        | none =>
          refine ⟨?_, fun hreached => absurd hreached (reached_cons_of_refused hadmitted hload)⟩
          rintro ⟨found, hfound⟩
          cases hfound
        | some state =>
          rw [reached_cons_of_loaded hadmitted hload]
          dsimp only
          cases htask : state.sessionTask sessionTaskId with
          | some task => exact ⟨fun _ => .inl rfl, fun _ => ⟨(state, task), rfl⟩⟩
          | none =>
            rw [ih hhonest]
            exact ⟨.inr, fun hor => hor.resolve_left Bool.false_ne_true⟩

/-! ### The headers in place of the states -/

/-- The answers from the headers are those of the loaded states. -/
structure HeaderPathRefines (disk : Disk) (dirs : List String) (cap now : ℕ)
    (cache : HeaderLruCache) (sessionTaskId : String) : Prop where
  headers : HeadersAgree disk now
  counts : ∃ cache' counts, liveSessionTaskCountsFrom disk dirs cap cache = some (cache', counts) ∧
    ∀ agentId, Assoc.find? agentId counts = Assoc.find? agentId (liveCountsLoaded disk dirs cap now)
  finds : (∃ file ∈ scannedFiles disk dirs cap, HasTask disk now sessionTaskId file) →
    ∃ cache' found, findSessionTaskInSavedStates disk dirs cap now cache sessionTaskId =
      some (cache', some (some found))

/-- Every file that can be loaded is plain. -/
def LoadedArePlain (disk : Disk) (now : ℕ) : Prop :=
  ∀ path file value, disk.file path = some file → file.value = some value →
    (TaskState.load value now).isSome → PlainFile value

theorem headersAgree_iff : HeadersAgree disk now ↔ LoadedArePlain disk now := by
  constructor
  · intro hagree path file value hfile hvalue hsome
    obtain ⟨state, hstate⟩ := Option.isSome_iff_exists.mp hsome
    have hload : loadFrom disk now path = some state := by
      rw [loadFrom, hfile, Option.bind_some, hvalue, Option.bind_some, hstate]
    obtain ⟨header, hheader, hsame⟩ := hagree path state hload
    rw [TaskStateHeader.fromPath, hfile, Option.bind_some, hvalue] at hheader
    exact (header_agrees_iff hstate).mp ⟨header, hheader, hsame⟩
  · intro hplain path state hload
    obtain ⟨file, hfile, hload⟩ := Option.bind_eq_some_iff.mp hload
    obtain ⟨value, hvalue, hstate⟩ := Option.bind_eq_some_iff.mp hload
    have hsome : (load value now).isSome := by rw [hstate]; rfl
    obtain ⟨header, hheader, hsame⟩ :=
      (header_agrees_iff hstate).mpr (hplain path file value hfile hvalue hsome)
    refine ⟨header, ?_, hsame⟩
    rw [TaskStateHeader.fromPath, hfile, Option.bind_some, hvalue, Option.bind_some, hheader]

/-- **After any lookups the headers give the answers of the loaded states exactly where the scan has room
for its files, every file that can be loaded is plain, no other listed file has a header with a live task,
and a task that a listed state has is reached.** -/
theorem headerPath_refines_iff {lookups : List (Disk × String)} (h : Distinguished lookups disk) :
    HeaderPathRefines disk dirs cap now (headersAfter lookups) sessionTaskId ↔
      HasCapacity cap ∧ LoadedArePlain disk now ∧ RefusedAreIdle disk now (scannedFiles disk dirs cap) ∧
        ((∃ file ∈ scannedFiles disk dirs cap, HasTask disk now sessionTaskId file) →
          Reached disk now sessionTaskId (scannedFiles disk dirs cap)) := by
  have hhonest := headersAfter_honest h
  have hfinds := @findListed_iff disk _ now (scannedFiles disk dirs cap) sessionTaskId hhonest
  constructor
  · rintro ⟨hagree, ⟨cache', counts, hcounts, hsame⟩, hfound⟩
    by_cases hcap : HasCapacity cap
    · rw [liveSessionTaskCountsFrom, stateFilesFromWithLimit, if_pos hcap] at hcounts
      obtain ⟨-, rfl⟩ := Prod.mk.inj (Option.some.inj hcounts)
      refine ⟨hcap, headersAgree_iff.mp hagree, (liveCounts_eq_iff hhonest hagree).mp hsame,
        fun htask => hfinds.mp ?_⟩
      obtain ⟨cache', found, hfound⟩ := hfound htask
      rw [findSessionTaskInSavedStates, stateFilesFromWithLimit, if_pos hcap] at hfound
      exact ⟨found, congrArg Prod.snd (Option.some.inj hfound)⟩
    · rw [liveSessionTaskCountsFrom, stateFilesFromWithLimit, if_neg hcap] at hcounts
      cases hcounts
  · rintro ⟨hcap, hplain, hidle, hreached⟩
    have hagree := headersAgree_iff.mpr hplain
    refine ⟨hagree, ?_, fun htask => ?_⟩
    · rw [liveSessionTaskCountsFrom, stateFilesFromWithLimit, if_pos hcap]
      exact ⟨_, _, rfl, (liveCounts_eq_iff hhonest hagree).mpr hidle⟩
    · obtain ⟨found, hfound⟩ := hfinds.mpr (hreached htask)
      rw [findSessionTaskInSavedStates, stateFilesFromWithLimit, if_pos hcap]
      exact ⟨_, found, congrArg some (Prod.ext rfl hfound)⟩

/-! ### A state file in its old form -/

def sampleTaskValue : Value :=
  .object [("id", .string "t-reviewer-1"), ("parent_task_id", .string "t"),
    ("agent_id", .string "reviewer"), ("prompt", .string "review"),
    ("lifecycle_state", .string "Running")]

def sampleStateValue (name : String) (tasks : List Value) : Value :=
  .object [("id", .string "t"), ("status", .string "Running"), ("active_grants", .object []),
    ("changed_files", .array []), ("command_history", .array []),
    ("conversation_snapshot",
      .object [("message_count", .number (.posInt 0)), ("summary", .string "")]),
    ("interrupted_sessions", .array []), (name, .array tasks)]

def sampleDisk (value : Value) : Disk :=
  { entries := fun _ => [⟨"t.json", 0⟩]
    file := fun path => if path = "s/t.json" then some ⟨some value, ⟨500, 0⟩⟩ else none }

theorem former_tasks_not_counted :
    ¬ HeaderPathRefines (sampleDisk (sampleStateValue "child_tasks" [sampleTaskValue])) ["s"] 200 1
      {} "t-reviewer-1" := by
  intro hrefines
  obtain ⟨cache', counts, hcounts, hsame⟩ := hrefines.counts
  rw [liveSessionTaskCountsFrom, stateFilesFromWithLimit, if_pos (by decide)] at hcounts
  obtain ⟨-, rfl⟩ := Prod.mk.inj (Option.some.inj hcounts)
  exact absurd (hsame "reviewer") (by decide +kernel)

theorem current_tasks_counted :
    HeaderPathRefines (sampleDisk (sampleStateValue "session_tasks" [sampleTaskValue])) ["s"] 200 1
      (headersAfter
        [(sampleDisk (sampleStateValue "session_tasks" [sampleTaskValue]), "s/t.json")])
      "t-reviewer-1" := by
  have hfiles : scannedFiles
      (sampleDisk (sampleStateValue "session_tasks" [sampleTaskValue])) ["s"] 200 =
        [⟨"s", "t", 0⟩] := by decide +kernel
  refine (headerPath_refines_iff ?_).mpr ⟨by decide, ?_, ?_, fun _ => ?_⟩
  · intro lookup hlookup file file' hfile hfile' _
    obtain rfl := List.mem_singleton.mp hlookup
    rw [hfile] at hfile'
    cases hfile'
    rfl
  · intro path file value hfile hvalue _
    rw [sampleDisk] at hfile
    dsimp only at hfile
    split at hfile
    · cases hfile
      cases hvalue
      refine ⟨fun value hchild => ?_, fun items hitems item hitem => ?_⟩
      · simp at hchild
      · simp only [List.mem_cons, Prod.mk.injEq, String.reduceEq, reduceCtorEq, false_and,
          Value.array.injEq, true_and, List.not_mem_nil, or_false, false_or] at hitems
        subst hitems
        exact ⟨_, List.mem_singleton.mp hitem⟩
    · cases hfile
  · rw [hfiles]
    intro file hfile hload
    obtain rfl := List.mem_singleton.mp hfile
    exact absurd hload (by decide +kernel)
  · rw [hfiles]
    refine ⟨[], _, [], rfl, ?_, ?_, nofun⟩
    · have hsome : ((TaskStateHeader.fromPath
          (sampleDisk (sampleStateValue "session_tasks" [sampleTaskValue])) "s/t.json").any
            fun header => isCandidate header "t-reviewer-1") = true := by decide +kernel
      exact (Option.any_eq_true _ _).mp hsome
    · have hsome : ((loadFrom
          (sampleDisk (sampleStateValue "session_tasks" [sampleTaskValue])) 1 "s/t.json").any
            fun state => (state.sessionTask "t-reviewer-1").isSome) = true := by decide +kernel
      exact (Option.any_eq_true _ _).mp hsome

end Vexcoder.Task

import Vexcoder.Subtask.StateTree
import Vexcoder.Task.NewestFiles

/-!
# Loading a task by its id

The task of an id is looked up in the listing of the newest state files, which has no more than
`max_scans` of them and only those that stand in a search directory under a plain name.  The file of the
id itself is not asked for.
-/

namespace Vexcoder.Subtask.StateTree

open Base Vexcoder.Task
open Lib.BoundedTop

variable {Place : Type} (host : TreeHost Place) (tree : StateTree Place) (id : String)

/-- `load_from_search_dirs_from` -/
def loadFromSearchDirs : Option (Except String TaskState) :=
  match (tree.stateFiles host).find? fun file => file.id = id with
  | some file => tree.load host file.dir id
  | none => some (.error ("task state '" ++ id ++ "' not found"))

/-! ### What is saved, and what is seen -/

/-- A directory has as entries the files that stand in it, each under its name. -/
def ListsFiles : Prop :=
  ∀ dir ∈ searchDirs host, ∀ name : String, name ∈ host.readDir tree.files dir ↔
    '/' ∉ name.toList ∧ (tree.files (host.place (dir ++ "/" ++ name))).isSome

/-- The path of the id has a state of this id in one of the search directories. -/
def Saved : Prop :=
  ∃ dir ∈ searchDirs host, ∃ file state, tree.fileAt host dir id = some file ∧
    file.text = .state state ∧ state.id = id

/-- The name of the file is that of a task state, and of an entry of the directory. -/
def Listable (id : String) : Prop :=
  id ≠ "" ∧ '/' ∉ id.toList ∧ isWorkingSetFilename (id ++ ".json") = false

/-- In milliseconds, as the listing compares them. -/
def CopyTime (millis : ℕ) : Prop :=
  ∃ dir ∈ searchDirs host, ∃ file, tree.fileAt host dir id = some file ∧ file.modifiedMillis = millis

/-- The lookup gives what is loaded of a newest copy. -/
def LoadsNewest : Prop :=
  ∃ dir ∈ searchDirs host, ∃ file, tree.fileAt host dir id = some file ∧
    (∀ millis, tree.CopyTime host id millis → millis ≤ file.modifiedMillis) ∧
      tree.loadFromSearchDirs host id = tree.load host dir id

def visited : List TaskStateFile :=
  (searchDirs host).flatMap fun dir => (tree.entries host dir).filterMap (stateFileOf dir)

/-- The newest copy of the other task is in relation to that of the first. -/
def Outranks (rel : ℕ → ℕ → Prop) (other : String) : Prop :=
  other ≠ id ∧ Listable other ∧ ∀ millis, tree.CopyTime host id millis →
    ∃ millis', tree.CopyTime host other millis' ∧ rel millis millis'

/-- Fewer other tasks than the listing has room for are in this relation to the task. -/
def FewOutrank (rel : ℕ → ℕ → Prop) : Prop :=
  ∀ others : Finset String, (∀ other ∈ others, tree.Outranks host id rel other) → others.card < host.maxScans

variable {host} {tree} {id}

theorem jsonStem_eq_some_iff {name : String} :
    jsonStem name = some id ↔ id ≠ "" ∧ name = id ++ ".json" := by
  have hlength : ".json".toList.length = 5 := by decide
  rw [jsonStem, Text.endsWith]
  constructor
  · intro h
    split at h
    · rename_i hends
      obtain ⟨stem, hstem⟩ := List.isSuffixOf_iff_suffix.mp hends
      have htake : name.toList.take (name.length - 5) = stem := by
        rw [← String.length_toList, ← hstem, List.length_append, hlength, Nat.add_sub_cancel, List.take_left]
      rw [htake] at h
      cases stem with
      | nil => cases h
      | cons c stem =>
        cases h
        refine ⟨fun hempty => ?_, ?_⟩
        · have := congrArg String.toList hempty
          rw [String.toList_ofList] at this
          cases this
        · apply String.toList_inj.mp
          rw [String.toList_append, String.toList_ofList]
          exact hstem.symm
    · cases h
  · rintro ⟨hempty, rfl⟩
    have hends : (".json".toList.isSuffixOf (id ++ ".json").toList) = true := by
      rw [String.toList_append]
      exact List.isSuffixOf_iff_suffix.mpr (List.suffix_append _ _)
    have htake : (id ++ ".json").toList.take ((id ++ ".json").length - 5) = id.toList := by
      rw [← String.length_toList, String.toList_append, List.length_append, hlength,
        Nat.add_sub_cancel, List.take_left]
    rw [if_pos hends, htake]
    cases hid : id.toList with
    | nil => exact absurd (String.toList_inj.mp (hid.trans rfl)) hempty
    | cons c stem =>
      show some (String.ofList (c :: stem)) = some id
      rw [← hid, String.ofList_toList]

theorem slash_notMem_json : '/' ∉ (id ++ ".json").toList ↔ '/' ∉ id.toList := by
  have hjson : '/' ∉ ".json".toList := by decide
  rw [String.toList_append, List.mem_append, not_or]
  exact ⟨And.left, fun h => ⟨h, hjson⟩⟩

theorem statePath_of_plain (dir : String) (h : '/' ∉ id.toList) :
    statePath dir id = dir ++ "/" ++ (id ++ ".json") := by
  have hstart : Text.startsWith id "/" = false := by
    rw [← Bool.not_eq_true]
    intro hprefix
    obtain ⟨rest, hrest⟩ := List.isPrefixOf_iff_prefix.mp hprefix
    exact h (hrest ▸ List.mem_append_left _ List.mem_cons_self)
  rw [statePath, if_neg (by rw [hstart]; exact Bool.false_ne_true), stateFilePath, String.append_assoc]

theorem mem_visited (hlists : tree.ListsFiles host) {file : TaskStateFile} :
    file ∈ tree.visited host ↔ Listable file.id ∧ file.dir ∈ searchDirs host ∧
      ∃ stored, tree.fileAt host file.dir file.id = some stored ∧
        stored.modifiedMillis = file.modifiedMillis := by
  rw [visited, List.mem_flatMap]
  constructor
  · rintro ⟨dir, hdir, hfile⟩
    obtain ⟨entry, hentry, hof⟩ := List.mem_filterMap.mp hfile
    obtain ⟨name, hname, rfl⟩ := List.mem_map.mp hentry
    rw [stateFileOf] at hof
    split at hof
    · cases hof
    rename_i hworking
    obtain ⟨id, hstem, rfl⟩ := Option.map_eq_some_iff.mp hof
    obtain ⟨hempty, rfl⟩ := jsonStem_eq_some_iff.mp hstem
    obtain ⟨hslash, hsome⟩ := (hlists dir hdir _).mp hname
    obtain ⟨stored, hstored⟩ := Option.isSome_iff_exists.mp hsome
    have hplain := slash_notMem_json.mp hslash
    refine ⟨⟨hempty, hplain, Bool.not_eq_true _ ▸ hworking⟩, hdir, stored, ?_, ?_⟩
    · rw [fileAt, statePath_of_plain dir hplain]
      exact hstored
    · show stored.modifiedMillis = _
      rw [hstored]
      rfl
  · rintro ⟨⟨hempty, hplain, hworking⟩, hdir, stored, hstored, hmillis⟩
    rw [fileAt, statePath_of_plain _ hplain] at hstored
    refine ⟨file.dir, hdir, List.mem_filterMap.mpr ⟨⟨file.id ++ ".json", stored.modified⟩, ?_, ?_⟩⟩
    · refine List.mem_map.mpr ⟨file.id ++ ".json", ?_, ?_⟩
      · exact (hlists _ hdir _).mpr ⟨slash_notMem_json.mpr hplain, Option.isSome_iff_exists.mpr
          ⟨stored, hstored⟩⟩
      · rw [hstored]
        rfl
    · rw [stateFileOf, if_neg (by rw [hworking]; exact Bool.false_ne_true),
        jsonStem_eq_some_iff.mpr ⟨hempty, rfl⟩, ← StateFile.modifiedMillis.eq_def, Option.map_some,
        hmillis]

/-- The copies of a listable id are those that the scan sees. -/
theorem copyTime_iff (hlists : tree.ListsFiles host) (hid : Listable id) {millis : ℕ} :
    tree.CopyTime host id millis ↔
      ∃ file ∈ tree.visited host, file.id = id ∧ file.modifiedMillis = millis := by
  constructor
  · rintro ⟨dir, hdir, stored, hstored, hmillis⟩
    exact ⟨⟨dir, id, millis⟩, (mem_visited hlists).mpr ⟨hid, hdir, stored, hstored, hmillis⟩, rfl, rfl⟩
  · rintro ⟨file, hfile, rfl, rfl⟩
    obtain ⟨-, hdir, stored, hstored, hmillis⟩ := (mem_visited hlists).mp hfile
    exact ⟨file.dir, hdir, stored, hstored, hmillis⟩

/-! ### What is found -/

theorem stateFiles_newest (tree : StateTree Place) :
    NewestFiles host.maxScans (tree.visited host) (tree.stateFiles host) :=
  listedFiles_newest host.maxScans (tree.visited host)

theorem loadsNewest_of_listed (hlists : tree.ListsFiles host)
    (h : id ∈ (tree.stateFiles host).map TaskStateFile.id) : tree.LoadsNewest host id := by
  obtain ⟨listed, hlisted, heq⟩ := List.mem_map.mp h
  cases hfind : (tree.stateFiles host).find? fun file => file.id = id with
  | none => exact absurd (decide_eq_true heq) (List.find?_eq_none.mp hfind listed hlisted)
  | some file =>
    have hfile : file ∈ tree.stateFiles host := List.mem_of_find?_eq_some hfind
    have heq' : decide (file.id = id) = true :=
      List.find?_some (p := fun file : TaskStateFile => decide (file.id = id)) hfind
    obtain rfl : file.id = id := of_decide_eq_true heq'
    obtain ⟨hvisited, hnewest⟩ := (stateFiles_newest tree).newest file hfile
    obtain ⟨hid, hdir, stored, hstored, hmillis⟩ := (mem_visited hlists).mp hvisited
    refine ⟨file.dir, hdir, stored, hstored, fun millis hcopy => ?_, ?_⟩
    · obtain ⟨other, hother, hsame, rfl⟩ := (copyTime_iff hlists hid).mp hcopy
      rw [hmillis]
      exact hnewest other hother hsame
    · rw [loadFromSearchDirs, hfind]

theorem enforce_error {path error : String} {mode : DiskPolicyMode} (h : enforce path mode = .error error) :
    error = "forbidden disk access outside .vex/index or .vex/state: " ++ path := by
  unfold enforce at h
  cases mode with
  | off | warn => simp at h
  | strict =>
    dsimp only at h
    split at h
    · cases h
    · exact (Except.error.inj h).symm

theorem load_ne_notFound (tree : StateTree Place) (dir id : String) :
    tree.load host dir id ≠ some (.error ("task state '" ++ id ++ "' not found")) := by
  have hhead : ∀ rest : String, ("task state '" ++ id ++ "' not found").toList ≠
      ("F" ++ rest).toList ∧ ("task state '" ++ id ++ "' not found").toList ≠
      ("f" ++ rest).toList := by
    intro rest
    simp only [String.toList_append]
    constructor <;> intro h <;> cases h
  have hread : "Failed to read state file: " = "F" ++ "ailed to read state file: " := by decide
  have hparse : "Failed to deserialize state file: " = "F" ++ "ailed to deserialize state file: " := by
    decide
  have hdisk : "forbidden disk access outside .vex/index or .vex/state: " =
      "f" ++ "orbidden disk access outside .vex/index or .vex/state: " := by decide
  intro h
  rw [load] at h
  cases henforce : enforce (statePath dir id) host.policyMode with
  | error error =>
    rw [henforce] at h
    have herror : error = "task state '" ++ id ++ "' not found" :=
      Except.error.inj (Option.some.inj h)
    rw [herror] at henforce
    have hforbidden := (enforce_error henforce).trans (by rw [hdisk, String.append_assoc])
    exact (hhead _).2 (congrArg String.toList hforbidden)
  | ok permission =>
    rw [henforce] at h
    cases htext : (tree.fileAt host dir id).map StateFile.text with
    | none =>
      rw [htext, hread, String.append_assoc] at h
      exact (hhead _).1 (congrArg String.toList (Except.error.inj (Option.some.inj h)).symm)
    | some text =>
      rw [htext] at h
      cases text with
      | unreadable =>
        rw [hread, String.append_assoc] at h
        exact (hhead _).1 (congrArg String.toList (Except.error.inj (Option.some.inj h)).symm)
      | malformed =>
        rw [hparse, String.append_assoc] at h
        exact (hhead _).1 (congrArg String.toList (Except.error.inj (Option.some.inj h)).symm)
      | state stored =>
        obtain ⟨_, -, hok⟩ := Option.map_eq_some_iff.mp h
        cases hok

/-- **Only what is listed is found.** -/
theorem loadsNewest_iff_listed (hlists : tree.ListsFiles host) :
    tree.LoadsNewest host id ↔ id ∈ (tree.stateFiles host).map TaskStateFile.id := by
  refine ⟨?_, loadsNewest_of_listed hlists⟩
  rintro ⟨dir, -, -, -, -, hload⟩
  rw [loadFromSearchDirs] at hload
  cases hfind : (tree.stateFiles host).find? fun file => file.id = id with
  | none =>
    rw [hfind] at hload
    exact absurd hload.symm (load_ne_notFound tree dir id)
  | some file =>
    have heq : decide (file.id = id) = true :=
      List.find?_some (p := fun file : TaskStateFile => decide (file.id = id)) hfind
    exact List.mem_map.mpr ⟨file, List.mem_of_find?_eq_some hfind, of_decide_eq_true heq⟩

theorem listable_of_listed (hlists : tree.ListsFiles host)
    (h : id ∈ (tree.stateFiles host).map TaskStateFile.id) : Listable id := by
  obtain ⟨file, hfile, rfl⟩ := List.mem_map.mp h
  exact ((mem_visited hlists).mp ((stateFiles_newest tree).newest file hfile).1).1

def listedIds (host : TreeHost Place) (tree : StateTree Place) : Finset String :=
  ((tree.stateFiles host).map TaskStateFile.id).toFinset

theorem card_listedIds_le (tree : StateTree Place) : (tree.listedIds host).card ≤ host.maxScans :=
  (stateFiles_newest tree).card_keys.le.trans (stateFiles_newest tree).length_le

/-- A task that is left out leaves the listing full, and with no task that is older. -/
theorem outranked_of_unlisted (hlists : tree.ListsFiles host) (hid : Listable id)
    (hfile : tree.HasFile host id) (h : id ∉ tree.listedIds host) :
    (tree.listedIds host).card = host.maxScans ∧
      ∀ other ∈ tree.listedIds host, tree.Outranks host id (· ≤ ·) other := by
  have hnewest : NewestFiles host.maxScans (tree.visited host) (tree.stateFiles host) :=
    stateFiles_newest tree
  have hout : id ∉ (tree.stateFiles host).map TaskStateFile.id := fun hmem =>
    h (List.mem_toFinset.mpr hmem)
  obtain ⟨dir, hdir, hsome⟩ := hfile
  obtain ⟨stored, hstored⟩ := Option.isSome_iff_exists.mp hsome
  have hvisited : (⟨dir, id, stored.modifiedMillis⟩ : TaskStateFile) ∈ tree.visited host :=
    (mem_visited hlists).mpr ⟨hid, hdir, stored, hstored, rfl⟩
  refine ⟨hnewest.card_keys.trans (hnewest.full hvisited hout), fun other hother => ?_⟩
  have hlisted := List.mem_toFinset.mp hother
  have hother' := listable_of_listed hlists hlisted
  obtain ⟨file, hfile, rfl⟩ := List.mem_map.mp hlisted
  refine ⟨fun heq => hout (heq ▸ hlisted), hother', fun millis hcopy => ?_⟩
  obtain ⟨copy, hseen, rfl, rfl⟩ := (copyTime_iff hlists hid).mp hcopy
  exact ⟨file.modifiedMillis,
    (copyTime_iff hlists hother').mpr ⟨file, (hnewest.newest file hfile).1, rfl, rfl⟩,
    hnewest.leftOut copy hseen hout file hfile⟩

theorem listed_of_outranks (hlists : tree.ListsFiles host) {other : String}
    (h : id ∈ tree.listedIds host) (hother : tree.Outranks host id (· < ·) other) :
    other ∈ tree.listedIds host := by
  have hnewest : NewestFiles host.maxScans (tree.visited host) (tree.stateFiles host) :=
    stateFiles_newest tree
  obtain ⟨-, hlistable, hnewer⟩ := hother
  have hlisted := List.mem_toFinset.mp h
  have hid := listable_of_listed hlists hlisted
  obtain ⟨file, hfile, rfl⟩ := List.mem_map.mp hlisted
  obtain ⟨millis, hcopy, hlt⟩ := hnewer _ ((copyTime_iff hlists hid).mpr
    ⟨file, (hnewest.newest file hfile).1, rfl, rfl⟩)
  obtain ⟨copy, hvisited, rfl, rfl⟩ := (copyTime_iff hlists hlistable).mp hcopy
  by_contra hout
  have hle := hnewest.leftOut copy hvisited (fun hmem => hout (List.mem_toFinset.mpr hmem)) file hfile
  omega

theorem saved_hasFile (h : tree.Saved host id) : tree.HasFile host id := by
  obtain ⟨dir, hdir, file, -, hfile, -⟩ := h
  exact ⟨dir, hdir, Option.isSome_iff_exists.mpr ⟨file, hfile⟩⟩

/-- One search directory, which has the task states `p` and, two milliseconds later, `q`. -/
def twoTasksHost (maxScans : ℕ) (hasCapacity : HasCapacity maxScans) : TreeHost String where
  toTaskHost := sampleHost
  legacyDir := none
  place path := path
  readDir _ dir := if dir = "state" then ["p.json", "q.json"] else []
  policyMode := .off
  modified n := 1000000 * (n + 1)
  saveError _ := none
  delegateLock := .ok ()
  rollups _ := []
  maxScans
  hasCapacity

def twoTasks : StateTree String where
  files place :=
    if place = "state/p.json" then some { text := .state { id := "p" }, header := none, modified := 0 }
    else if place = "state/q.json" then
      some { text := .state { id := "q" }, header := none, modified := 2000000 }
    else none

theorem twoTasks_lists (maxScans : ℕ) (hasCapacity : HasCapacity maxScans) :
    twoTasks.ListsFiles (twoTasksHost maxScans hasCapacity) := by
  intro dir hdir name
  obtain rfl : dir = "state" := List.mem_singleton.mp hdir
  have hp : "state/p.json" = "state" ++ "/" ++ "p.json" := by decide
  have hq : "state/q.json" = "state" ++ "/" ++ "q.json" := by decide
  have hmem : name ∈ (twoTasksHost maxScans hasCapacity).readDir twoTasks.files "state" ↔
      name = "p.json" ∨ name = "q.json" := by
    show name ∈ ["p.json", "q.json"] ↔ _
    rw [List.mem_cons, List.mem_singleton]
  rw [hmem]
  constructor
  · intro h
    rcases h with rfl | rfl
    all_goals exact ⟨by decide, rfl⟩
  · intro h
    have hfile : (twoTasks.files ("state" ++ "/" ++ name)).isSome := h.2
    rw [twoTasks] at hfile
    dsimp only at hfile
    rw [hp, hq] at hfile
    by_contra hout
    rw [not_or] at hout
    rw [if_neg (mt (String.append_right_inj _).mp hout.1),
      if_neg (mt (String.append_right_inj _).mp hout.2)] at hfile
    cases hfile

theorem twoTasks_saved {maxScans : ℕ} {hasCapacity : HasCapacity maxScans}
    (h : twoTasks.Saved (twoTasksHost maxScans hasCapacity) id) :
    id ∈ ({"p", "q"} : Finset String) := by
  obtain ⟨dir, -, file, state, hfile, htext, rfl⟩ := h
  rw [fileAt, twoTasks] at hfile
  dsimp only at hfile
  split at hfile
  · cases hfile
    cases htext
    decide
  · split at hfile
    · cases hfile
      cases htext
      decide
    · cases hfile

end Vexcoder.Subtask.StateTree

import Vexcoder.Lib.Fallible
import Vexcoder.Subtask.Orchestrator

/-!
# The configuration of the agents

The checks of `load_agents_config`: the names can stand in a path and differ, a team has members that
are agents and differ, and an agent that shares the workspace has one task and changes nothing.
`ValidConfig` says what an accepted configuration gives to the orchestrator.
-/

namespace Vexcoder.Subtask

open Base Lib

structure AgentSettings extends AgentProfile where
  profile : String := "default"
  maxParallelTasks : ℕ := 1
  allowedCapabilities : List String := []

structure AgentsConfig where
  agentProfiles : List AgentSettings := []
  teamDefinitions : List TeamDefinition := []

def AgentsConfig.profiles (config : AgentsConfig) : List AgentProfile :=
  config.agentProfiles.map AgentSettings.toAgentProfile

def AgentsConfig.agent (config : AgentsConfig) (name : String) : Option AgentSettings :=
  config.agentProfiles.find? fun agent => agent.name = name

/-! ### Names -/

def maxConfigNameLen : ℕ := 64

def windowsReservedDeviceNames : List String :=
  ["CON", "PRN", "AUX", "NUL", "COM1", "COM2", "COM3", "COM4", "COM5", "COM6", "COM7", "COM8",
    "COM9", "LPT1", "LPT2", "LPT3", "LPT4", "LPT5", "LPT6", "LPT7", "LPT8", "LPT9"]

/-- `char::is_control` -/
def isControl (c : Char) : Bool := c.toNat < 32 || (127 ≤ c.toNat && c.toNat < 160)

def isFilesystemSafe (name : String) : Bool :=
  if Text.isEmpty name || name == "." || name == ".." || Text.endsWith name " " ||
      Text.endsWith name "." then false
  else if name.toList.any fun c =>
      isControl c || ['/', '\\', ':', '*', '?', '"', '<', '>', '|'].contains c then false
  else
    let stem := name.toList.takeWhile (· != '.')
    !windowsReservedDeviceNames.contains (String.ofList (stem.map Char.toUpper))

/-- `char::escape_default` -/
def escapeDefault (c : Char) : List Char :=
  if c = '\t' then ['\\', 't']
  else if c = '\r' then ['\\', 'r']
  else if c = '\n' then ['\\', 'n']
  else if c = '\'' || c = '"' || c = '\\' then ['\\', c]
  else if 32 ≤ c.toNat && c.toNat < 127 then [c]
  else ['\\', 'u', '\x7b'] ++ Nat.toDigits 16 c.toNat ++ ['\x7d']

def escapedName (name : String) : String := String.ofList (name.toList.flatMap escapeDefault)

/-- The checks of a name that agents and teams share; `seen` are the names before it. -/
def validateName (kind path : String) (seen : List String) (name : String) : Except String Unit :=
  if Text.isEmpty name then .error (kind ++ " name must not be empty in '" ++ path ++ "'")
  else if byteLen name.toList > maxConfigNameLen then
    .error (kind ++ " name '" ++ escapedName name ++ "' exceeds 64-byte limit in '" ++ path ++ "'")
  else if !isFilesystemSafe name then
    .error (kind ++ " name '" ++ escapedName name ++
      "' contains characters unsafe for filesystem paths in '" ++ path ++ "'")
  else if name ∈ seen then
    .error ("duplicate " ++ kind ++ " name '" ++ escapedName name ++ "' in '" ++ path ++ "'")
  else .ok ()

def validateAgentNames (path : String) : List String → List AgentSettings → Except String Unit
  | _, [] => .ok ()
  | seen, agent :: rest => do
    validateName "agent" path seen agent.name
    validateAgentNames path (agent.name :: seen) rest

/-! ### Teams -/

def validateMembers (path : String) (agents : List AgentSettings) (team : TeamDefinition) :
    List String → List String → Except String Unit
  | _, [] => .ok ()
  | seen, member :: rest =>
    if member ∈ seen then
      .error ("team '" ++ escapedName team.name ++ "' contains duplicate member '" ++
        escapedName member ++ "' in '" ++ path ++ "'")
    else if !(agents.any fun agent => agent.name == member) then
      .error ("team '" ++ escapedName team.name ++ "' references unknown agent '" ++
        escapedName member ++ "' in '" ++ path ++ "'; known agents: [" ++
        Text.join ", " (agents.map fun agent => escapedName agent.name) ++ "]")
    else validateMembers path agents team (member :: seen) rest

def validateTeams (path : String) (agents : List AgentSettings) :
    List String → List TeamDefinition → Except String Unit
  | _, [] => .ok ()
  | seen, team :: rest => do
    validateName "team" path seen team.name
    if team.members.isEmpty then
      .error ("team '" ++ escapedName team.name ++ "' must have at least one member in '" ++ path ++
        "'")
    else do
      validateMembers path agents team [] team.members
      validateTeams path agents (team.name :: seen) rest

/-! ### Isolation -/

def mutableCapabilities : List String := ["apply-patch", "run-command", "write-file"]

def validateIsolation (path : String) (agent : AgentSettings) : Except String Unit :=
  if agent.isolation ≠ .shared then .ok ()
  else if agent.maxParallelTasks > 1 then
    .error ("agent '" ++ agent.name ++ "' uses shared isolation but max_parallel_tasks=" ++
      toString agent.maxParallelTasks ++ " in '" ++ path ++
      "'; shared isolation requires max_parallel_tasks=1")
  else match agent.allowedCapabilities.find? mutableCapabilities.contains with
    | some capability =>
      .error ("agent '" ++ agent.name ++ "' uses shared isolation but declares mutable capability '" ++
        capability ++ "' in '" ++ path ++ "'; shared isolation is read-only per ADR-034 §3")
    | none => .ok ()

def AgentsConfig.validate (config : AgentsConfig) (path : String) : Except String Unit := do
  validateAgentNames path [] config.agentProfiles
  validateTeams path config.agentProfiles [] config.teamDefinitions
  config.agentProfiles.forM (validateIsolation path)

/-! ### What is accepted -/

structure ValidConfig (config : AgentsConfig) : Prop where
  agentsDiffer : (config.agentProfiles.map fun agent => agent.name).Nodup
  hasMembers : ∀ team ∈ config.teamDefinitions, team.members ≠ []
  membersDiffer : ∀ team ∈ config.teamDefinitions, team.members.Nodup

variable {path : String} {seen : List String} {u : Unit} {agents : List AgentSettings}

theorem validateName_differs {kind name : String} (h : validateName kind path seen name = .ok u) :
    name ∉ seen := by
  intro mem
  rw [validateName] at h
  split at h
  · cases h
  split at h
  · cases h
  · split at h
    all_goals cases h

theorem validateAgentNames_differ (h : validateAgentNames path seen agents = .ok u) :
    (agents.map fun agent => agent.name).Nodup ∧ ∀ agent ∈ agents, agent.name ∉ seen := by
  induction agents generalizing seen u with
  | nil => exact ⟨List.nodup_nil, nofun⟩
  | cons agent rest ih =>
    obtain ⟨_, checked, h⟩ := bind_eq_ok.mp h
    obtain ⟨differ, unseen⟩ := ih h
    constructor
    · refine List.nodup_cons.mpr ⟨?_, differ⟩
      intro mem
      obtain ⟨other, hother, same⟩ := List.mem_map.mp mem
      exact unseen other hother (same ▸ List.mem_cons_self)
    · exact List.forall_mem_cons.mpr ⟨validateName_differs checked, fun other mem hseen =>
        unseen other mem (List.mem_cons_of_mem _ hseen)⟩

theorem validateMembers_differ {team : TeamDefinition} {members : List String}
    (h : validateMembers path agents team seen members = .ok u) :
    members.Nodup ∧ ∀ member ∈ members, member ∉ seen := by
  induction members generalizing seen with
  | nil => exact ⟨List.nodup_nil, nofun⟩
  | cons member rest ih =>
    rw [validateMembers] at h
    split at h
    · cases h
    rename_i unseen
    split at h
    · cases h
    obtain ⟨differ, later⟩ := ih h
    constructor
    · exact List.nodup_cons.mpr ⟨fun mem => later member mem List.mem_cons_self, differ⟩
    · exact List.forall_mem_cons.mpr ⟨unseen, fun other mem hseen =>
        later other mem (List.mem_cons_of_mem _ hseen)⟩

theorem validateTeams_members {teams : List TeamDefinition}
    (h : validateTeams path agents seen teams = .ok u) :
    ∀ team ∈ teams, team.members ≠ [] ∧ team.members.Nodup := by
  induction teams generalizing seen u with
  | nil => exact nofun
  | cons team rest ih =>
    obtain ⟨_, -, h⟩ := bind_eq_ok.mp h
    split at h
    · cases h
    rename_i members
    obtain ⟨_, checked, h⟩ := bind_eq_ok.mp h
    refine List.forall_mem_cons.mpr ⟨⟨?_, (validateMembers_differ checked).1⟩, ih h⟩
    exact fun hnil => members (by rw [hnil]; rfl)

theorem validConfig_of_validate {config : AgentsConfig} (h : config.validate path = .ok u) :
    ValidConfig config := by
  obtain ⟨_, names, h⟩ := bind_eq_ok.mp h
  obtain ⟨_, teams, -⟩ := bind_eq_ok.mp h
  exact ⟨(validateAgentNames_differ names).1, fun team mem => (validateTeams_members teams team mem).1,
    fun team mem => (validateTeams_members teams team mem).2⟩

end Vexcoder.Subtask

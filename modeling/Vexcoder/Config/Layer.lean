import Vexcoder.Task.Snapshot

/-!
# Configuration layers

A layer is what one source says about the configuration: the file of the system, of the user or of the
repository, or the environment.  `apply_over` puts one layer over another: each setting is that of the
upper layer where it has one, and the tables `api`, `compaction`, `undo`, `search` and `auto_memory` are
merged setting by setting.
-/

namespace Vexcoder.Configuration

open Base
open Vexcoder.Task (ModelBackendKind)

inductive ModelProtocol where
  | messagesV1
  | chatCompat

inductive ToolCallMode where
  | structured

inductive ToolPolicy where
  | full

inductive SandboxKind where
  | passthrough
  | macosExec
  | container
  | bubblewrap

inductive ApiTransport where
  | http
  | unix
  | both

inductive McpTransport where
  | stdio
  | http

/-- The headers are a sorted map. -/
structure McpServerConfig where
  name : String
  transport : McpTransport
  command : Option String := none
  args : List String := []
  url : Option String := none
  headers : List (String × String) := []
  timeoutSecs : Option ℕ := none

inductive HookTrigger where
  | preTool
  | postTool

inductive HookOnFail where
  | warn
  | abort
  | ignore

structure HookConfig where
  trigger : HookTrigger
  tool : String
  command : String
  args : List String := []
  onFail : HookOnFail := .warn

structure HttpHookConfig where
  trigger : HookTrigger
  tool : String
  url : String
  onFail : HookOnFail := .warn

structure ApiClientConfig where
  baseUrl : String := ""
  explicitProtocol : Option ModelProtocol := none
  probeTimeoutMs : ℕ := 2000
  deltaAccumulatorMemoryWatermarkMb : ℕ := 256

/-! ### Layers -/

structure ApiConfigLayer where
  transport : Option String := none
  host : Option String := none
  port : Option ℕ := none
  socket : Option String := none
  key : Option String := none
  tlsCert : Option String := none
  tlsKey : Option String := none
  tlsCaCert : Option String := none
  tlsSkipVerify : Option Bool := none
  vpnTrust : Option Bool := none

structure CompactionConfigLayer where
  enabled : Option Bool := none
  thresholdPercent : Option ℕ := none
  keepRecentTurns : Option ℕ := none
  summaryMaxTokens : Option ℕ := none

structure UndoConfigLayer where
  enabled : Option Bool := none
  maxCheckpoints : Option ℕ := none

structure SearchConfigLayer where
  enabled : Option Bool := none
  autoIndex : Option Bool := none
  exclude : Option (List String) := none
  maxFileSize : Option ℕ := none

structure AutoMemoryConfigLayer where
  enabled : Option Bool := none
  maxNotesPerTurn : Option ℕ := none

structure ConfigLayer where
  modelName : Option String := none
  modelUrl : Option String := none
  modelUrlSkipTlsCheck : Option Bool := none
  workingDir : Option String := none
  sandbox : Option String := none
  sandboxProfile : Option String := none
  sandboxRequire : Option Bool := none
  modelBackend : Option String := none
  modelProtocol : Option String := none
  toolCallMode : Option String := none
  modelProfile : Option String := none
  maxProjectInstructionsTokens : Option ℕ := none
  maxMemoryTokens : Option ℕ := none
  notesPath : Option String := none
  api : Option ApiConfigLayer := none
  hooks : Option (List HookConfig) := none
  httpHooks : Option (List HttpHookConfig) := none
  mcpServers : Option (List McpServerConfig) := none
  compaction : Option CompactionConfigLayer := none
  undo : Option UndoConfigLayer := none
  search : Option SearchConfigLayer := none
  autoMemory : Option AutoMemoryConfigLayer := none
  apiClient : Option ApiClientConfig := none

/-! ### Merging -/

/-- Two tables, of which either may be missing. -/
def applyTable {α : Type} (merge : α → α → α) : Option α → Option α → Option α
  | none, none => none
  | some layer, none | none, some layer => some layer
  | some base, some upper => some (merge base upper)

def applyApiOver : Option ApiConfigLayer → Option ApiConfigLayer → Option ApiConfigLayer :=
  applyTable fun base upper =>
    { transport := upper.transport.or base.transport
      host := upper.host.or base.host
      port := upper.port.or base.port
      socket := upper.socket.or base.socket
      key := upper.key.or base.key
      tlsCert := upper.tlsCert.or base.tlsCert
      tlsKey := upper.tlsKey.or base.tlsKey
      tlsCaCert := upper.tlsCaCert.or base.tlsCaCert
      tlsSkipVerify := upper.tlsSkipVerify.or base.tlsSkipVerify
      vpnTrust := upper.vpnTrust.or base.vpnTrust }

def applyCompactionOver :
    Option CompactionConfigLayer → Option CompactionConfigLayer → Option CompactionConfigLayer :=
  applyTable fun base upper =>
    { enabled := upper.enabled.or base.enabled
      thresholdPercent := upper.thresholdPercent.or base.thresholdPercent
      keepRecentTurns := upper.keepRecentTurns.or base.keepRecentTurns
      summaryMaxTokens := upper.summaryMaxTokens.or base.summaryMaxTokens }

def applyUndoOver : Option UndoConfigLayer → Option UndoConfigLayer → Option UndoConfigLayer :=
  applyTable fun base upper =>
    { enabled := upper.enabled.or base.enabled
      maxCheckpoints := upper.maxCheckpoints.or base.maxCheckpoints }

def applySearchOver : Option SearchConfigLayer → Option SearchConfigLayer → Option SearchConfigLayer :=
  applyTable fun base upper =>
    { enabled := upper.enabled.or base.enabled
      autoIndex := upper.autoIndex.or base.autoIndex
      exclude := upper.exclude.or base.exclude
      maxFileSize := upper.maxFileSize.or base.maxFileSize }

def applyAutoMemoryOver :
    Option AutoMemoryConfigLayer → Option AutoMemoryConfigLayer → Option AutoMemoryConfigLayer :=
  applyTable fun base upper =>
    { enabled := upper.enabled.or base.enabled
      maxNotesPerTurn := upper.maxNotesPerTurn.or base.maxNotesPerTurn }

def applyOver (base upper : ConfigLayer) : ConfigLayer where
  modelName := upper.modelName.or base.modelName
  modelUrl := upper.modelUrl.or base.modelUrl
  modelUrlSkipTlsCheck := upper.modelUrlSkipTlsCheck.or base.modelUrlSkipTlsCheck
  workingDir := upper.workingDir.or base.workingDir
  sandbox := upper.sandbox.or base.sandbox
  sandboxProfile := upper.sandboxProfile.or base.sandboxProfile
  sandboxRequire := upper.sandboxRequire.or base.sandboxRequire
  modelBackend := upper.modelBackend.or base.modelBackend
  modelProtocol := upper.modelProtocol.or base.modelProtocol
  toolCallMode := upper.toolCallMode.or base.toolCallMode
  modelProfile := upper.modelProfile.or base.modelProfile
  maxProjectInstructionsTokens :=
    upper.maxProjectInstructionsTokens.or base.maxProjectInstructionsTokens
  maxMemoryTokens := upper.maxMemoryTokens.or base.maxMemoryTokens
  notesPath := upper.notesPath.or base.notesPath
  api := applyApiOver base.api upper.api
  hooks := upper.hooks.or base.hooks
  httpHooks := upper.httpHooks.or base.httpHooks
  mcpServers := upper.mcpServers.or base.mcpServers
  compaction := applyCompactionOver base.compaction upper.compaction
  undo := applyUndoOver base.undo upper.undo
  search := applySearchOver base.search upper.search
  autoMemory := applyAutoMemoryOver base.autoMemory upper.autoMemory
  apiClient := upper.apiClient.or base.apiClient

/-- The key of the layer's `api` table. -/
def ConfigLayer.apiKey (layer : ConfigLayer) : Option String := layer.api.bind ApiConfigLayer.key

theorem apiKey_applyOver (base upper : ConfigLayer) :
    (applyOver base upper).apiKey = upper.apiKey.or base.apiKey := by
  rw [ConfigLayer.apiKey, ConfigLayer.apiKey, ConfigLayer.apiKey, applyOver]
  cases base.api with
  | none => cases upper.api with
    | none => rfl
    | some api => exact (Option.or_none).symm
  | some table => cases upper.api with
    | none => rfl
    | some api => rfl

/-! ### Enumerations -/

def parseKeyword {α : Type} (names : List (String × α)) (value : String) : Option α :=
  names.lookup (Text.toAsciiLowercase (Text.trim value))

def parseModelBackend : String → Option ModelBackendKind :=
  parseKeyword [("local-runtime", .localRuntime), ("api-server", .apiServer)]

def parseModelProtocol : String → Option ModelProtocol :=
  parseKeyword [("messages-v1", .messagesV1), ("chat-compat", .chatCompat)]

def parseToolCallMode : String → Option ToolCallMode := parseKeyword [("structured", .structured)]

def parseApiTransport : String → Option ApiTransport :=
  parseKeyword [("http", .http), ("unix", .unix), ("both", .both)]

def parseSandboxKind : String → Option SandboxKind :=
  parseKeyword [("passthrough", .passthrough), ("macos-exec", .macosExec),
    ("container", .container), ("bubblewrap", .bubblewrap)]

def parseBoolFlag : String → Option Bool :=
  parseKeyword [("true", true), ("1", true), ("yes", true), ("on", true), ("false", false),
    ("0", false), ("no", false), ("off", false)]

def inferModelProtocol (_apiUrl : String) : ModelProtocol := .messagesV1

end Vexcoder.Configuration

import Vexcoder.Config.Layer

/-!
# From the merged layer to the configuration

`resolve_config` gives each setting its default, parses the enumerations, expands the references to the
environment and checks the MCP servers and the hooks.  What the program asks the machine for is a
`ConfigHost`; the profiles of models are kept as the host gives them.
-/

namespace Vexcoder.Configuration

open Base
open Lib
open Vexcoder.Task (ModelBackendKind)

structure ConfigHost (Profile : Type) where
  /-- `std::env::var`, without the reason of a failure. -/
  env : String → Option String
  homeDir : Option String
  keyring : Except String (Option String)
  isLocalEndpointUrl : String → Bool
  defaultProfile : ModelBackendKind → Profile
  loadProfile : String → Except String Profile
  profileToolCallMode : Profile → ToolCallMode
  /-- The JSON object of `VEX_MODEL_HEADERS_JSON` as headers. -/
  readHeaders : String → Except String (List (String × String))

structure SandboxConfig where
  kind : SandboxKind
  profile : Option String
  require : Bool

structure ApiConfig where
  transport : ApiTransport
  host : String
  port : ℕ
  socket : Option String
  key : Option String
  tlsCert : Option String
  tlsKey : Option String
  tlsCaCert : Option String
  tlsSkipVerify : Bool
  vpnTrust : Bool

structure CompactionConfig where
  enabled : Bool
  thresholdPercent : ℕ
  keepRecentTurns : ℕ
  summaryMaxTokens : ℕ

structure UndoConfig where
  enabled : Bool := true
  maxCheckpoints : ℕ := 20

structure SearchConfig where
  enabled : Bool := true
  autoIndex : Bool := true
  exclude : List String := ["target/", "node_modules/", ".git/"]
  maxFileSize : ℕ := 1048576

structure AutoMemoryConfig where
  enabled : Bool
  maxNotesPerTurn : ℕ

structure Config (Profile : Type) where
  modelToken : Option String
  modelName : String
  modelUrl : String
  modelUrlSkipTlsCheck : Bool
  workingDir : String
  modelBackend : ModelBackendKind
  modelProtocol : ModelProtocol
  toolCallMode : ToolCallMode
  toolPolicy : ToolPolicy
  modelProfile : Profile
  maxProjectInstructionsTokens : ℕ
  maxMemoryTokens : ℕ
  sandbox : SandboxConfig
  modelHeaders : List (String × String)
  notesPath : Option String
  api : ApiConfig
  hooks : List HookConfig
  httpHooks : List HttpHookConfig
  mcpServers : List McpServerConfig
  compaction : CompactionConfig
  undo : UndoConfig
  search : SearchConfig
  autoMemory : AutoMemoryConfig
  apiClient : ApiClientConfig
  force : Bool
  bypassPolicy : Bool
  expandContext : Bool

def nonblank (s : String) : Bool := !Text.isEmpty (Text.trim s)

/-- `str::trim`, `none` for blanks. -/
def trimmed (s : String) : Option String := (some (Text.trim s)).filter fun s => !Text.isEmpty s

/-- `Result::with_context` -/
def withContext {α : Type} (context : String) : Except String α → Except String α
  | .ok a => .ok a
  | .error e => .error (context ++ ": " ++ e)

def clamp (n low high : ℕ) : ℕ := max low (min n high)

/-! ### Paths -/

/-- `Path::join` -/
def joinPath (dir path : String) : String :=
  if Text.startsWith path "/" then path
  else if Text.isEmpty dir || Text.endsWith dir "/" then dir ++ path
  else dir ++ "/" ++ path

variable {Profile : Type} (host : ConfigHost Profile)

def expandHome (path : String) : String :=
  match Text.stripPrefix path "~/", host.homeDir with
  | some rest, some home => joinPath home rest
  | _, _ => path

def resolveWorkingDir (workingDir : Option String) (fallbackCwd : String) : String :=
  workingDir.getD fallbackCwd

def loadModelProfile (selectedPath : Option String) (profileBaseDir : String)
    (modelBackend : ModelBackendKind) : Except String Profile :=
  match selectedPath with
  | none => .ok (host.defaultProfile modelBackend)
  | some path =>
    withContext ("failed to load model profile '" ++ path ++ "' (base '" ++ profileBaseDir ++ "')")
      (host.loadProfile (joinPath profileBaseDir path))

/-! ### References to the environment -/

def resolveSecretReference (value : Option String) : Option String :=
  (value.bind trimmed).bind fun trimmedValue =>
    match (Text.stripPrefix trimmedValue "$\x7b").filter fun rest => Text.endsWith rest "\x7d" with
    | some rest =>
      (host.env (String.ofList (rest.toList.take (rest.length - 1)))).bind trimmed
    | none => some trimmedValue

def resolveReferencesFrom (whole : String) : ℕ → List Char → Except String (List Char)
  | 0, rest => .ok rest
  | n + 1, rest =>
    match Search.find "$\x7b".toList rest with
    | none => .ok rest
    | some start =>
      let suffix := rest.drop (start + 2)
      match Search.find "\x7d".toList suffix with
      | none => .error
          ("unterminated environment variable reference in MCP headers: '" ++ whole ++ "'")
      | some stop =>
        let name := String.ofList (suffix.take stop)
        if Text.isEmpty name then
          .error "empty environment variable reference in MCP headers"
        else match host.env name with
          | none => .error
              ("missing environment variable '" ++ name ++ "' referenced in MCP headers")
          | some resolved =>
            if !nonblank resolved then .error
              ("environment variable '" ++ name ++
                "' referenced in MCP headers resolved to an empty value")
            else (resolveReferencesFrom whole n (suffix.drop (stop + 1))).map fun rendered =>
              rest.take start ++ (Text.trim resolved).toList ++ rendered

/-- Each reference takes at least two characters of the text. -/
def resolveMcpHeaderEnv (value : String) : Except String String :=
  let whole := Text.trim value
  (resolveReferencesFrom host whole whole.length whole.toList).map String.ofList

/-! ### Checks -/

def HttpHookConfig.validate (hook : HttpHookConfig) : Except String Unit :=
  if !Text.startsWith hook.url "https://" && !Text.startsWith hook.url "http://" then
    .error ("http_hook url must start with 'https://' or 'http://', got: " ++ hook.url)
  else .ok ()

def validateHttpHooks (hooks : List HttpHookConfig) : Except String (List HttpHookConfig) := do
  for hook in hooks do
    hook.validate
  .ok hooks

def isServerNameChar (c : Char) : Bool := c.isAlphanum || c == '_' || c == '-'

/-- The headers of a server; `expand` says whether references to the environment are resolved. -/
def validateHeaders (name : String) (expand : Bool) :
    List (String × String) → List (String × String) → Except String (List (String × String))
  | [], headers => .ok headers
  | (header, value) :: rest, headers =>
    if !nonblank header then
      .error ("http MCP server '" ++ name ++ "' has an empty header name")
    else do
      let value ← if expand then resolveMcpHeaderEnv host value else .ok (Text.trim value)
      validateHeaders name expand rest (Assoc.insertSorted (Text.trim header) value headers)

def validateTransport (expand : Bool) (server : McpServerConfig) :
    Except String McpServerConfig :=
  match server.transport with
  | .stdio =>
    match server.command.bind trimmed with
    | none => .error ("stdio MCP server '" ++ server.name ++ "' requires 'command'")
    | some command =>
      if server.url.any nonblank then
        .error ("stdio MCP server '" ++ server.name ++ "' must not set 'url'")
      else if !server.headers.isEmpty then
        .error ("stdio MCP server '" ++ server.name ++ "' must not set headers")
      else .ok { server with command := some command, url := none }
  | .http =>
    match server.url.bind trimmed with
    | none => .error ("http MCP server '" ++ server.name ++ "' requires 'url'")
    | some url =>
      if server.command.any nonblank then
        .error ("http MCP server '" ++ server.name ++ "' must not set 'command'")
      else if !server.args.isEmpty then
        .error ("http MCP server '" ++ server.name ++ "' must not set 'args'")
      else (validateHeaders host server.name expand server.headers []).map fun headers =>
        { server with command := none, url := some url, headers }

/-- The servers in order; `seen` are the names so far. -/
def validateMcpServersWithMode (expand : Bool) :
    List String → List McpServerConfig → Except String (List McpServerConfig)
  | _, [] => .ok []
  | seen, server :: rest =>
    let server := { server with name := Text.trim server.name }
    if Text.isEmpty server.name then .error "mcp_servers.name must not be empty"
    else if !server.name.toList.all isServerNameChar then
      .error ("mcp_servers.name '" ++ server.name ++
        "' contains invalid characters; only ASCII letters, digits, hyphens, and underscores " ++
        "are allowed")
    else if server.name ∈ seen then
      .error ("duplicate mcp server name '" ++ server.name ++ "'")
    else do
      let server := { server with args := server.args.filterMap trimmed }
      let server ← validateTransport host expand server
      let rest ← validateMcpServersWithMode expand (server.name :: seen) rest
      .ok (server :: rest)

def validateMcpServersForLayer (servers : List McpServerConfig) : Except String Unit :=
  (validateMcpServersWithMode host false [] servers).map fun _ => ()

def validateMcpServers (servers : List McpServerConfig) : Except String (List McpServerConfig) :=
  validateMcpServersWithMode host true [] servers

/-! ### Tables -/

def resolveCompactionConfig (layer : Option CompactionConfigLayer) : CompactionConfig :=
  let layer := layer.getD {}
  { enabled := layer.enabled.getD false
    thresholdPercent := clamp (layer.thresholdPercent.getD 80) 10 99
    keepRecentTurns := clamp (layer.keepRecentTurns.getD 4) 1 32
    summaryMaxTokens := clamp (layer.summaryMaxTokens.getD 1024) 64 4096 }

def resolveUndoConfig : Option UndoConfigLayer → UndoConfig
  | none => {}
  | some layer =>
    { enabled := layer.enabled.getD true
      maxCheckpoints := clamp (layer.maxCheckpoints.getD 20) 1 100 }

def normalizeExcludePrefixes (entries : List String) : List String :=
  entries.map fun entry => if Text.endsWith entry "/" then entry else entry ++ "/"

def resolveSearchConfig : Option SearchConfigLayer → SearchConfig
  | none => {}
  | some layer =>
    let defaults : SearchConfig := {}
    { enabled := layer.enabled.getD defaults.enabled
      autoIndex := layer.autoIndex.getD defaults.autoIndex
      exclude := normalizeExcludePrefixes (layer.exclude.getD defaults.exclude)
      maxFileSize := layer.maxFileSize.getD defaults.maxFileSize }

def resolveAutoMemoryConfig (layer : Option AutoMemoryConfigLayer) : AutoMemoryConfig :=
  let layer := layer.getD {}
  { enabled := layer.enabled.getD false
    maxNotesPerTurn := clamp (layer.maxNotesPerTurn.getD 3) 1 10 }

def resolveApiConfig (layer : Option ApiConfigLayer) : ApiConfig :=
  let layer := layer.getD {}
  { transport := (layer.transport.bind parseApiTransport).getD .http
    host := layer.host.getD "127.0.0.1"
    port := layer.port.getD 6274
    socket := layer.socket.map (expandHome host)
    key := resolveSecretReference host layer.key
    tlsCert := layer.tlsCert.map (expandHome host)
    tlsKey := layer.tlsKey.map (expandHome host)
    tlsCaCert := layer.tlsCaCert.map (expandHome host)
    tlsSkipVerify := layer.tlsSkipVerify.getD false
    vpnTrust := layer.vpnTrust.getD false }

/-! ### The configuration -/

def parseModelHeadersJson : Except String (List (String × String)) :=
  match (host.env "VEX_MODEL_HEADERS_JSON").filter nonblank with
  | none => .ok []
  | some raw => host.readHeaders raw

def resolveConfig (merged : ConfigLayer) (envToken : Option String)
    (fallbackCwd profileBaseDir : String) : Except String (Config Profile) := do
  let modelUrl := merged.modelUrl.getD ""
  let isLocal := !nonblank modelUrl || host.isLocalEndpointUrl modelUrl
  let modelBackend := (merged.modelBackend.bind parseModelBackend).getD
    (if isLocal then .localRuntime else .apiServer)
  let modelProtocol :=
    (merged.modelProtocol.bind parseModelProtocol).getD (inferModelProtocol modelUrl)
  let modelProfile ← loadModelProfile host merged.modelProfile profileBaseDir modelBackend
  let toolCallMode :=
    if merged.modelProfile.isSome then host.profileToolCallMode modelProfile
    else (merged.toolCallMode.bind parseToolCallMode).getD .structured
  let mcpServers ← validateMcpServers host (merged.mcpServers.getD [])
  let modelHeaders ← parseModelHeadersJson host
  let httpHooks ← validateHttpHooks (merged.httpHooks.getD [])
  .ok {
    modelToken := envToken
    modelName := merged.modelName.getD "local/default"
    modelUrl
    modelUrlSkipTlsCheck := merged.modelUrlSkipTlsCheck.getD false
    workingDir := resolveWorkingDir merged.workingDir fallbackCwd
    modelBackend, modelProtocol, toolCallMode
    toolPolicy := .full
    modelProfile
    maxProjectInstructionsTokens := merged.maxProjectInstructionsTokens.getD 4096
    maxMemoryTokens := merged.maxMemoryTokens.getD 2048
    sandbox :=
      { kind := (merged.sandbox.bind parseSandboxKind).getD .passthrough
        profile := merged.sandboxProfile
        require := merged.sandboxRequire.getD false }
    modelHeaders
    notesPath := merged.notesPath.map (expandHome host)
    api := resolveApiConfig host merged.api
    hooks := merged.hooks.getD []
    httpHooks, mcpServers
    compaction := resolveCompactionConfig merged.compaction
    undo := resolveUndoConfig merged.undo
    search := resolveSearchConfig merged.search
    autoMemory := resolveAutoMemoryConfig merged.autoMemory
    apiClient := merged.apiClient.getD {}
    force := false, bypassPolicy := false, expandContext := false }

end Vexcoder.Configuration

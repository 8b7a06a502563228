import Vexcoder.Config.Resolve

/-!
# Loading the configuration

`load_layers` reads the files of the system, of the user and of the repository, refuses what a file of
its kind may not set, puts the layers over one another with the environment on top, and resolves the
result.  What a repository brings along is not trusted: its file can set neither the notes path, the
hooks, the MCP servers nor the API key, and can only switch the TLS check of the model on.  The last
section compares two runs that differ in the file of the repository.
-/

namespace Vexcoder.Configuration

open Base

inductive ConfigFile where
  | notFound
  | unreadable (error : String)
  | malformed (error : String)
  /-- A TOML document: whether it has a `model_token`, and the layer it reads as. -/
  | document (hasModelToken : Bool) (layer : Except String ConfigLayer)

structure ConfigSource where
  path : String
  file : ConfigFile

/-- `bail!` under a condition. -/
def bailIf (condition : Bool) (message : String) : Except String Unit :=
  if condition then .error message else .ok ()

/-! ### A file -/

/-- A setting with a fixed set of values. -/
def checkKeyword {α : Type} (parse : String → Option α) (path key expected : String) :
    Option String → Except String Unit
  | none => .ok ()
  | some value => bailIf (parse value).isNone
      ("config file '" ++ path ++ "': invalid " ++ key ++ " '" ++ value ++ "': expected one of " ++
        expected)

def checkApiLayer (path : String) (api : ApiConfigLayer) : Except String Unit := do
  checkKeyword parseApiTransport path "api.transport" "http, unix, both" api.transport
  bailIf (api.tlsSkipVerify.getD false)
    ("config file '" ++ path ++ "': api.tls_skip_verify must remain false in Phase I")
  bailIf (api.vpnTrust.getD false)
    ("config file '" ++ path ++ "': api.vpn_trust must remain false until a dedicated ADR exists")

section Host

variable {Profile : Type} (host : ConfigHost Profile)

def checkLayer (path : String) (layer : ConfigLayer) : Except String Unit := do
  checkKeyword parseModelBackend path "model_backend" "local-runtime, api-server" layer.modelBackend
  checkKeyword parseModelProtocol path "model_protocol" "messages-v1, chat-compat"
    layer.modelProtocol
  checkKeyword parseToolCallMode path "tool_call_mode" "structured" layer.toolCallMode
  checkKeyword parseSandboxKind path "sandbox" "passthrough, macos-exec, container, bubblewrap"
    layer.sandbox
  layer.api.forM (checkApiLayer path)
  layer.mcpServers.forM fun servers =>
    withContext ("config file '" ++ path ++ "': invalid [[mcp_servers]] entry")
      (validateMcpServersForLayer host servers)
  layer.httpHooks.forM fun hooks => hooks.forM fun hook =>
    withContext ("config file '" ++ path ++ "': invalid [[http_hooks]] entry") hook.validate

def loadConfigLayer (source : ConfigSource) : Except String (Option ConfigLayer) :=
  match source.file with
  | .notFound => .ok none
  | .unreadable error => .error ("failed to read config file '" ++ source.path ++ "': " ++ error)
  | .malformed error => .error ("malformed TOML in '" ++ source.path ++ "': " ++ error)
  | .document hasModelToken layer => do
    bailIf hasModelToken
      ("'model_token' found in '" ++ source.path ++ "': this key must not appear in config " ++
        "files; set VEX_MODEL_TOKEN via the environment only")
    let layer ← withContext
      ("unknown or invalid key in config file '" ++ source.path ++ "'") layer
    checkLayer host source.path layer
    .ok (some layer)

/-- `map(load_config_layer).transpose()?.flatten()` -/
def loadOptional : Option ConfigSource → Except String (Option ConfigLayer)
  | none => .ok none
  | some source => loadConfigLayer host source

/-! ### The environment -/

def modelTokenFromEnvOrKeyring : Option String :=
  ((host.env "VEX_MODEL_TOKEN").filter nonblank).or
    (match host.keyring with
      | .ok value => value
      | .error _ => none)

def envText (name : String) : Option String := (host.env name).filter nonblank

def envTrimmed (name : String) : Option String := (host.env name).bind trimmed

def envKeyword {α : Type} (parse : String → Option α) (name expected : String) :
    Except String (Option String) :=
  match envText host name with
  | none => .ok none
  | some value =>
    if (parse value).isNone then
      .error ("Invalid " ++ name ++ " '" ++ value ++ "': expected one of " ++ expected)
    else .ok (some value)

def envFlag (name : String) : Except String (Option Bool) :=
  match envText host name with
  | none => .ok none
  | some value =>
    match parseBoolFlag value with
    | none => .error ("Invalid " ++ name ++ " '" ++ value ++ "': expected true/false/1/0")
    | some flag => .ok (some flag)

def envBudget (name : String) : Option ℕ :=
  ((host.env name).bind fun value => parseU64 (trim value.toList)).filter (0 < ·)

def parseU16From : ℕ → List Char → Except String ℕ
  | n, [] => .ok n
  | n, c :: rest =>
    if !c.isDigit then .error "invalid digit found in string"
    else
      let n := n * 10 + (c.toNat - '0'.toNat)
      if n < 2 ^ 16 then parseU16From n rest
      else .error "number too large to fit in target type"

/-- `str::parse::<u16>`, of a text that is not empty. -/
def parseU16 : List Char → Except String ℕ
  | '+' :: c :: rest => parseU16From 0 (c :: rest)
  | text => parseU16From 0 text

def envPort (name : String) : Except String (Option ℕ) :=
  match envText host name with
  | none => .ok none
  | some value =>
    withContext ("Invalid " ++ name ++ " '" ++ value ++ "': expected integer 1-65535")
      ((parseU16 (trim value.toList)).map some)

def readEnvLayer : Except String (ConfigLayer × Option String) := do
  let envToken := modelTokenFromEnvOrKeyring host
  let modelProtocol ←
    envKeyword host parseModelProtocol "VEX_MODEL_PROTOCOL" "messages-v1, chat-compat"
  let modelBackend ←
    envKeyword host parseModelBackend "VEX_MODEL_BACKEND" "local-runtime, api-server"
  let toolCallMode ← envKeyword host parseToolCallMode "VEX_TOOL_CALL_MODE" "structured"
  let modelUrlSkipTlsCheck ← envFlag host "VEX_MODEL_URL_SKIP_TLS_CHECK"
  let apiTransport ← envKeyword host parseApiTransport "VEX_API_TRANSPORT" "http, unix, both"
  let apiPort ← envPort host "VEX_API_PORT"
  let apiTlsSkipVerify ← envFlag host "VEX_API_TLS_SKIP_VERIFY"
  let apiVpnTrust ← envFlag host "VEX_API_VPN_TRUST"
  let sandboxRequire ← envFlag host "VEX_SANDBOX_REQUIRE"
  let layer : ConfigLayer :=
    { modelName := envText host "VEX_MODEL_NAME"
      modelUrl := envTrimmed host "VEX_MODEL_URL"
      modelUrlSkipTlsCheck
      workingDir := envText host "VEX_WORKDIR"
      sandbox := envText host "VEX_SANDBOX"
      sandboxProfile := envTrimmed host "VEX_SANDBOX_PROFILE"
      sandboxRequire, modelBackend, modelProtocol, toolCallMode
      modelProfile := envText host "VEX_MODEL_PROFILE"
      maxProjectInstructionsTokens := envBudget host "VEX_MAX_PROJECT_INSTRUCTIONS_TOKENS"
      maxMemoryTokens := envBudget host "VEX_MAX_MEMORY_TOKENS"
      api := some
        { transport := apiTransport
          host := envTrimmed host "VEX_API_HOST"
          port := apiPort
          socket := envTrimmed host "VEX_API_SOCKET"
          key := envTrimmed host "VEX_API_KEY"
          tlsCert := envTrimmed host "VEX_API_TLS_CERT"
          tlsKey := envTrimmed host "VEX_API_TLS_KEY"
          tlsCaCert := envTrimmed host "VEX_API_TLS_CA_CERT"
          tlsSkipVerify := some (apiTlsSkipVerify.getD false)
          vpnTrust := some (apiVpnTrust.getD false) } }
  .ok (layer, envToken)

/-! ### The layers -/

def checkRepoLayer (path : String) (layer : ConfigLayer) : Except String Unit := do
  bailIf (layer.modelUrlSkipTlsCheck = some true)
    ("'model_url_skip_tls_check' found in repo-local config '" ++ path ++
      "': TLS bypass must be set in user config or environment only")
  bailIf layer.notesPath.isSome
    ("'notes_path' found in repo-local config '" ++ path ++
      "': notes path must be set in user config layer only")
  bailIf layer.hooks.isSome
    ("'[[hooks]]' found in repo-local config '" ++ path ++
      "': hooks must be set in user config layer only")
  bailIf layer.httpHooks.isSome
    ("'[[http_hooks]]' found in repo-local config '" ++ path ++
      "': http hooks must be set in user config layer only")
  bailIf layer.mcpServers.isSome
    ("'[[mcp_servers]]' found in repo-local config '" ++ path ++
      "': MCP servers must be set in user config layer only")

def checkSystemLayer (path : String) (layer : ConfigLayer) : Except String Unit :=
  bailIf layer.mcpServers.isSome
    ("'[[mcp_servers]]' found in system config '" ++ path ++
      "': MCP servers must be set in user config layer only")

def checkRepoSecrets (path : String) (layer : ConfigLayer) : Except String Unit :=
  bailIf layer.apiKey.isSome
    ("'api.key' found in repo-local config '" ++ path ++
      "': api secrets must not appear in repo-local config")

def applyLayer (merged : ConfigLayer) : Option ConfigLayer → ConfigLayer
  | none => merged
  | some layer => applyOver merged layer

def pathOf (source : Option ConfigSource) : String := (source.map ConfigSource.path).getD "<unknown>"

def loadLayers (cwd : String) (repo user system : Option ConfigSource) (profileBaseDir : String) :
    Except String (Config Profile) := do
  let systemLayer ← loadOptional host system
  let userLayer ← loadOptional host user
  let repoLayer ← loadOptional host repo
  repoLayer.forM (checkRepoLayer (pathOf repo))
  systemLayer.forM (checkSystemLayer (pathOf system))
  repoLayer.forM (checkRepoSecrets (pathOf repo))
  let (envLayer, envToken) ← readEnvLayer host
  let merged := applyLayer (applyLayer (applyLayer {} systemLayer) userLayer) repoLayer
  resolveConfig host (applyOver merged envLayer) envToken cwd profileBaseDir

end Host

end Vexcoder.Configuration

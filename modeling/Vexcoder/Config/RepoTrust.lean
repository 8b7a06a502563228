import Vexcoder.Config.Load
import Vexcoder.Lib.Fallible

/-!
# What a repository cannot configure

Each layer has a part that a repository may not touch: the notes path, the hooks, the MCP servers and the
API key.  Merging acts on that part alone, the refusals leave a repository's layer with an empty one, and
`resolve_config` reads these settings of the result from it and from the environment only.
-/

namespace Vexcoder.Configuration

open Base Lib

theorem bailIf_eq_ok {condition : Bool} {message : String} {u : Unit} :
    bailIf condition message = .ok u ↔ condition = false := by
  cases condition with
  | false => exact ⟨fun _ => rfl, fun _ => rfl⟩
  | true =>
    constructor
    · intro h
      exact absurd h (by intro h; cases h)
    · intro h
      cases h

/-! ### The protected part of a layer -/

structure ProtectedSettings where
  notesPath : Option String := none
  hooks : Option (List HookConfig) := none
  httpHooks : Option (List HttpHookConfig) := none
  mcpServers : Option (List McpServerConfig) := none
  apiKey : Option String := none

def ConfigLayer.protectedSettings (layer : ConfigLayer) : ProtectedSettings where
  notesPath := layer.notesPath
  hooks := layer.hooks
  httpHooks := layer.httpHooks
  mcpServers := layer.mcpServers
  apiKey := layer.apiKey

def ProtectedSettings.upper (base upper : ProtectedSettings) : ProtectedSettings where
  notesPath := upper.notesPath.or base.notesPath
  hooks := upper.hooks.or base.hooks
  httpHooks := upper.httpHooks.or base.httpHooks
  mcpServers := upper.mcpServers.or base.mcpServers
  apiKey := upper.apiKey.or base.apiKey

theorem protectedSettings_applyOver (base upper : ConfigLayer) :
    (applyOver base upper).protectedSettings = base.protectedSettings.upper upper.protectedSettings := by
  have key := apiKey_applyOver base upper
  rw [ConfigLayer.protectedSettings, key]
  rfl

/-- What the refusals leave of a repository's layer. -/
structure Unprivileged (layer : ConfigLayer) : Prop where
  settings : layer.protectedSettings = {}
  tlsCheck : layer.modelUrlSkipTlsCheck ≠ some true

theorem unprivileged_of_checked {path : String} {layer : ConfigLayer} {u v : Unit}
    (checked : checkRepoLayer path layer = .ok u) (secrets : checkRepoSecrets path layer = .ok v) :
    Unprivileged layer := by
  obtain ⟨_, tls, checked⟩ := bind_eq_ok.mp checked
  obtain ⟨_, notes, checked⟩ := bind_eq_ok.mp checked
  obtain ⟨_, hooks, checked⟩ := bind_eq_ok.mp checked
  obtain ⟨_, httpHooks, servers⟩ := bind_eq_ok.mp checked
  have tls := of_decide_eq_false (bailIf_eq_ok.mp tls)
  have notes := Option.isSome_eq_false_iff.mp (bailIf_eq_ok.mp notes)
  have hooks := Option.isSome_eq_false_iff.mp (bailIf_eq_ok.mp hooks)
  have httpHooks := Option.isSome_eq_false_iff.mp (bailIf_eq_ok.mp httpHooks)
  have servers := Option.isSome_eq_false_iff.mp (bailIf_eq_ok.mp servers)
  have key := Option.isSome_eq_false_iff.mp (bailIf_eq_ok.mp secrets)
  constructor
  · rw [ConfigLayer.protectedSettings, Option.isNone_iff_eq_none.mp notes,
      Option.isNone_iff_eq_none.mp hooks, Option.isNone_iff_eq_none.mp httpHooks,
      Option.isNone_iff_eq_none.mp servers, Option.isNone_iff_eq_none.mp key]
  · exact tls

/-- An unprivileged layer does not change the protected part of what it is put over. -/
theorem protectedSettings_applyLayer {merged : ConfigLayer} {layer : Option ConfigLayer}
    (unprivileged : ∀ l ∈ layer, Unprivileged l) :
    (applyLayer merged layer).protectedSettings = merged.protectedSettings := by
  cases layer with
  | none => rfl
  | some layer =>
    have empty : layer.protectedSettings = {} := (unprivileged layer rfl).settings
    show (applyOver merged layer).protectedSettings = merged.protectedSettings
    rw [protectedSettings_applyOver, empty]
    rfl

theorem skipTlsCheck_applyLayer {merged upper : ConfigLayer} {layer : Option ConfigLayer}
    (unprivileged : ∀ l ∈ layer, Unprivileged l)
    (skips : (applyOver (applyLayer merged layer) upper).modelUrlSkipTlsCheck = some true) :
    (applyOver merged upper).modelUrlSkipTlsCheck = some true := by
  cases layer with
  | none => exact skips
  | some layer =>
    have kept : layer.modelUrlSkipTlsCheck ≠ some true := (unprivileged layer rfl).tlsCheck
    have skips : upper.modelUrlSkipTlsCheck.or
        (layer.modelUrlSkipTlsCheck.or merged.modelUrlSkipTlsCheck) = some true := skips
    show upper.modelUrlSkipTlsCheck.or merged.modelUrlSkipTlsCheck = some true
    cases upper : upper.modelUrlSkipTlsCheck with
    | some skip => rwa [upper] at skips
    | none =>
      rw [upper] at skips
      cases own : layer.modelUrlSkipTlsCheck with
      | none => rwa [own] at skips
      | some skip =>
        rw [own] at skips
        exact absurd (own.trans skips) kept

section Host

variable {Profile : Type} {host : ConfigHost Profile}

/-! ### What the configuration takes from the protected part -/

/-- The protected settings of a configuration are functions of those of the merged layer. -/
structure ResolvesFrom (host : ConfigHost Profile) (settings : ProtectedSettings)
    (skipTlsCheck : Option Bool) (token : Option String) (config : Config Profile) : Prop where
  notesPath : config.notesPath = settings.notesPath.map (expandHome host)
  hooks : config.hooks = settings.hooks.getD []
  httpHooks : validateHttpHooks (settings.httpHooks.getD []) = .ok config.httpHooks
  mcpServers : validateMcpServers host (settings.mcpServers.getD []) = .ok config.mcpServers
  apiKey : config.api.key = resolveSecretReference host settings.apiKey
  modelToken : config.modelToken = token
  modelUrlSkipTlsCheck : config.modelUrlSkipTlsCheck = skipTlsCheck.getD false

theorem resolveApiConfig_key (layer : ConfigLayer) :
    (resolveApiConfig host layer.api).key = resolveSecretReference host layer.apiKey := by
  rw [ConfigLayer.apiKey]
  cases layer.api with
  | none | some api => rfl

theorem resolveConfig_resolves {merged : ConfigLayer} {token : Option String} {cwd profileBaseDir : String}
    {config : Config Profile} (resolved : resolveConfig host merged token cwd profileBaseDir = .ok config) :
    ResolvesFrom host merged.protectedSettings merged.modelUrlSkipTlsCheck token config := by
  obtain ⟨profile, -, resolved⟩ := bind_eq_ok.mp resolved
  obtain ⟨servers, validServers, resolved⟩ := bind_eq_ok.mp resolved
  obtain ⟨headers, -, resolved⟩ := bind_eq_ok.mp resolved
  obtain ⟨httpHooks, validHooks, resolved⟩ := bind_eq_ok.mp resolved
  cases resolved
  exact ⟨rfl, rfl, validHooks, validServers, resolveApiConfig_key merged, rfl, rfl⟩

theorem eq_some_true_of_getD {flag : Option Bool} (h : flag.getD false = true) : flag = some true := by
  cases flag with
  | none => exact absurd h Bool.false_ne_true
  | some flag => exact congrArg some h

theorem forM_some_eq_ok {layer : Option ConfigLayer} {check : ConfigLayer → Except String Unit}
    {u : Unit} (h : layer.forM check = .ok u) : ∀ l ∈ layer, check l = .ok () := by
  intro l mem
  cases mem
  exact h

/-- A run that succeeds: the layers below the repository's, of which that of the system sets no servers,
its own, which is unprivileged, and the environment. -/
theorem loadLayers_resolves {cwd profileBaseDir : String} {repo user system : Option ConfigSource}
    {config : Config Profile} (loaded : loadLayers host cwd repo user system profileBaseDir = .ok config) :
    ∃ systemLayer userLayer repoLayer envLayer token,
      loadOptional host system = .ok systemLayer ∧ loadOptional host user = .ok userLayer ∧
      loadOptional host repo = .ok repoLayer ∧ readEnvLayer host = .ok (envLayer, token) ∧
      (∀ layer ∈ systemLayer, layer.mcpServers = none) ∧
      (∀ layer ∈ repoLayer, Unprivileged layer) ∧
      resolveConfig host
        (applyOver (applyLayer (applyLayer (applyLayer {} systemLayer) userLayer) repoLayer) envLayer)
        token cwd profileBaseDir = .ok config := by
  obtain ⟨systemLayer, readSystem, loaded⟩ := bind_eq_ok.mp loaded
  obtain ⟨userLayer, readUser, loaded⟩ := bind_eq_ok.mp loaded
  obtain ⟨repoLayer, readRepo, loaded⟩ := bind_eq_ok.mp loaded
  obtain ⟨_, checked, loaded⟩ := bind_eq_ok.mp loaded
  obtain ⟨_, noServers, loaded⟩ := bind_eq_ok.mp loaded
  obtain ⟨_, secrets, loaded⟩ := bind_eq_ok.mp loaded
  obtain ⟨⟨envLayer, token⟩, readEnv, resolved⟩ := bind_eq_ok.mp loaded
  refine ⟨systemLayer, userLayer, repoLayer, envLayer, token, readSystem, readUser, readRepo, readEnv,
    ?_, ?_, resolved⟩
  · intro layer mem
    have unset := bailIf_eq_ok.mp (forM_some_eq_ok noServers layer mem)
    exact Option.isNone_iff_eq_none.mp (Option.isSome_eq_false_iff.mp unset)
  · intro layer mem
    exact unprivileged_of_checked (forM_some_eq_ok checked layer mem) (forM_some_eq_ok secrets layer mem)

/-- **The file of a repository touches no protected setting.**  Whatever two repositories bring along,
two runs that succeed with the same other files and the same environment agree on the notes path, the
hooks, the MCP servers, the API key and the token of the model; and a run skips the TLS check of the
model only if the run without a file of the repository does. -/
theorem repo_file_protects {cwd base base' : String} {repo repo' user system : Option ConfigSource}
    {config config' : Config Profile}
    (loaded : loadLayers host cwd repo user system base = .ok config)
    (loaded' : loadLayers host cwd repo' user system base' = .ok config') :
    config.notesPath = config'.notesPath ∧ config.hooks = config'.hooks ∧
      config.httpHooks = config'.httpHooks ∧ config.mcpServers = config'.mcpServers ∧
      config.api.key = config'.api.key ∧ config.modelToken = config'.modelToken ∧
      ((∀ source ∈ repo', source.file = .notFound) →
        config.modelUrlSkipTlsCheck = true → config'.modelUrlSkipTlsCheck = true) := by
  obtain ⟨systemLayer, userLayer, repoLayer, envLayer, token, readSystem, readUser, -, readEnv,
    -, unprivileged, resolved⟩ := loadLayers_resolves loaded
  obtain ⟨systemLayer', userLayer', repoLayer', envLayer', token', readSystem', readUser', readRepo',
    readEnv', -, unprivileged', resolved'⟩ := loadLayers_resolves loaded'
  cases readSystem.symm.trans readSystem'
  cases readUser.symm.trans readUser'
  cases readEnv.symm.trans readEnv'
  have from₁ := resolveConfig_resolves resolved
  have from₂ := resolveConfig_resolves resolved'
  rw [protectedSettings_applyOver, protectedSettings_applyLayer unprivileged] at from₁
  rw [protectedSettings_applyOver, protectedSettings_applyLayer unprivileged'] at from₂
  refine ⟨from₁.notesPath.trans from₂.notesPath.symm, from₁.hooks.trans from₂.hooks.symm,
    Except.ok.inj (from₁.httpHooks.symm.trans from₂.httpHooks),
    Except.ok.inj (from₁.mcpServers.symm.trans from₂.mcpServers),
    from₁.apiKey.trans from₂.apiKey.symm, from₁.modelToken.trans from₂.modelToken.symm, ?_⟩
  intro absent skips
  have noLayer : repoLayer' = none := by
    cases repo' with
    | none => exact (Except.ok.inj readRepo').symm
    | some source =>
      have read : loadConfigLayer host source = .ok repoLayer' := readRepo'
      rw [loadConfigLayer, absent source rfl] at read
      exact (Except.ok.inj read).symm
  have skipped := eq_some_true_of_getD (from₁.modelUrlSkipTlsCheck.symm.trans skips)
  have below := skipTlsCheck_applyLayer unprivileged skipped
  rw [from₂.modelUrlSkipTlsCheck, noLayer]
  exact congrArg (·.getD false) below

end Host

def sampleHost : ConfigHost Unit where
  env name := if name = "VEX_API_KEY" then some "k" else none
  homeDir := some "/home/u"
  keyring := .ok (some "t")
  isLocalEndpointUrl _ := false
  defaultProfile _ := ()
  loadProfile _ := .ok ()
  profileToolCallMode _ := .structured
  readHeaders _ := .ok []

def sampleUser : ConfigSource where
  path := "/home/u/.config/vex/config.toml"
  file := .document false (.ok { notesPath := some "~/notes", modelUrlSkipTlsCheck := some true })

def sampleRepo : ConfigSource where
  path := "/r/.vex/config.toml"
  file := .document false (.ok { modelName := some "m", modelUrlSkipTlsCheck := some false })

def loadSample (repo : Option ConfigSource) : Except String (Config Unit) :=
  loadLayers sampleHost "/r" repo (some sampleUser) none "/r"

theorem sample_repo_file_protects :
    ∃ config config', loadSample (some sampleRepo) = .ok config ∧ loadSample none = .ok config' ∧
      config.notesPath = some "/home/u/notes" ∧ config.notesPath = config'.notesPath ∧
      config'.modelUrlSkipTlsCheck = true := by
  obtain ⟨config, loaded, notes⟩ : ∃ config, loadSample (some sampleRepo) = .ok config ∧
      config.notesPath = some "/home/u/notes" := ⟨_, rfl, rfl⟩
  obtain ⟨config', loaded', skips⟩ : ∃ config, loadSample none = .ok config ∧
      config.modelUrlSkipTlsCheck = true := ⟨_, rfl, rfl⟩
  exact ⟨config, config', loaded, loaded', notes, (repo_file_protects loaded loaded').1, skips⟩

end Vexcoder.Configuration

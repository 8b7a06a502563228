import Vexcoder.Base.Json
import Vexcoder.Base.Text

/-!
# What the conversation is given

The client, the environment variables, the clock and the libraries, as one record; and the limits
that are read from it.
-/

namespace Vexcoder.Conversation

open Base

inductive ToolCallMode where
  | structured
  deriving DecidableEq

inductive ToolPolicy where
  | full
  | plan
  | chat
  deriving DecidableEq

structure ApiClient where
  toolCallMode : ToolCallMode
  toolPolicy : ToolPolicy
  /-- `is_local_endpoint_url` of the URL. -/
  isLocalEndpoint : Bool
  sharedPrefixFingerprint : String → Option String

def ApiClient.supportsStructuredToolProtocol (client : ApiClient) : Bool :=
  client.toolCallMode = .structured && client.toolPolicy ≠ .chat

structure Environment where
  client : ApiClient
  /-- `std::env::var(..).ok()` -/
  var : String → Option String
  /-- The reading of the clock in milliseconds, for each time it is read. -/
  clock : ℕ → ℕ
  codec : JsonCodec
  /-- `serde_json::to_string_pretty` -/
  toStringPretty : Value → String
  /-- `DefaultHasher` at a string. -/
  hashContent : String → ℕ
  /-- `format_edit_hunks`: the hunks of an edit, from the old and the new text. -/
  formatEditHunks : String → String → String → ℕ → String
  /-- `DateTime::parse_from_rfc3339`, in milliseconds. -/
  parseTimestamp : String → Option ℤ
  /-- `to_rfc3339_opts(SecondsFormat::Millis, true)` -/
  formatTimestamp : ℤ → String

namespace Environment

variable (env : Environment)

def parseUsize (s : String) : Option ℕ := parseU64 (trim s.toList)

def clamp (value lo hi : ℕ) : ℕ := max lo (min value hi)

def envOverrideUsize (key : String) (default lo hi : ℕ) : ℕ :=
  (((env.var key).bind parseUsize).map fun v => clamp v lo hi).getD default

theorem envOverrideUsize_ge {key : String} {default lo hi : ℕ} (h : lo ≤ default) :
    lo ≤ env.envOverrideUsize key default lo hi := by
  unfold envOverrideUsize
  cases (env.var key).bind parseUsize with
  | none => exact h
  | some v => exact Nat.le_max_left _ _

structure HistoryLimits where
  maxAssistantHistoryChars : ℕ
  maxToolResultHistoryChars : ℕ
  maxApiMessages : ℕ

def historyDefaults (isLocalEndpoint : Bool) : HistoryLimits :=
  if isLocalEndpoint then
    { maxAssistantHistoryChars := 1200, maxToolResultHistoryChars := 2500, maxApiMessages := 14 }
  else { maxAssistantHistoryChars := 3000, maxToolResultHistoryChars := 6000, maxApiMessages := 32 }

def resolveHistoryLimits : HistoryLimits :=
  let defaults := historyDefaults env.client.isLocalEndpoint
  { maxAssistantHistoryChars :=
      env.envOverrideUsize "VEX_MAX_ASSISTANT_HISTORY_CHARS" defaults.maxAssistantHistoryChars
        200 20000
    maxToolResultHistoryChars :=
      env.envOverrideUsize "VEX_MAX_TOOL_RESULT_HISTORY_CHARS" defaults.maxToolResultHistoryChars
        200 40000
    maxApiMessages :=
      env.envOverrideUsize "VEX_MAX_API_MESSAGES" defaults.maxApiMessages 4 128 }

def resolveMaxToolRounds : ℕ :=
  let defaultRounds := if env.client.isLocalEndpoint then 12 else 24
  clamp (((env.var "VEX_MAX_TOOL_ROUNDS").bind parseUsize).getD defaultRounds) 2 64

def resolveHistoryKeepTurns : ℕ := env.envOverrideUsize "VEX_HISTORY_KEEP_TURNS" 10 2 64

/-- `parse_bool_flag`; no other character lower-cases to a letter of these words. -/
def parseBoolFlag (s : String) : Option Bool :=
  let flag := Text.toAsciiLowercase (Text.trim s)
  if flag = "true" ∨ flag = "1" ∨ flag = "yes" ∨ flag = "on" then some true
  else if flag = "false" ∨ flag = "0" ∨ flag = "no" ∨ flag = "off" then some false
  else none

def toolApprovalEnabled : Bool :=
  ((env.var "VEX_TOOL_CONFIRM").bind parseBoolFlag).getD !env.client.isLocalEndpoint

end Environment

end Vexcoder.Conversation

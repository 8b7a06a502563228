import Vexcoder.Conversation.Messages

/-!
# The message history

What the conversation does to the history of messages: texts are shortened when they enter it, old
tool results are condensed, and the front of the history is cut off when there are too many messages
or the provider reports an overflow of its context.
-/

namespace Vexcoder.Conversation

open Base

/-! ### Shortening texts -/

def condensedToolResultLines : ℕ := 5

def truncateToLines (text : String) (maxLines : ℕ) : String :=
  let lines := Text.lines text
  if lines.getLast?.any fun line => Text.endsWith line "more lines)" then text
  else if lines.length ≤ maxLines then text
  else
    let remaining := lines.length - maxLines
    Text.join "\n" (lines.take maxLines) ++ "\n(" ++ toString remaining ++ " more lines)"

def truncateForHistory (text : String) (maxChars : ℕ) : String :=
  if maxChars = 0 then ""
  else
    let chars := text.toList
    let total := chars.length
    if total ≤ maxChars then text
    else
      let indicator := "\n...[" ++ toString (total - maxChars) ++ " chars omitted]...\n"
      let indicatorLen := Text.charCount indicator
      if maxChars ≤ indicatorLen then String.ofList (chars.take maxChars)
      else
        let available := maxChars - indicatorLen
        let keepHead := available / 2
        let keepSuffix := available - keepHead
        String.ofList (chars.take keepHead) ++ indicator ++ String.ofList (chars.drop (total - keepSuffix))

/-- The state of the loop of `condense_text_protocol_tool_results`. -/
structure CondenseState where
  out : String := ""
  contentLinesSinceHeader : ℕ := 0
  totalRemaining : ℕ := 0
  inToolResult : Bool := false

def CondenseState.pushLine (s : CondenseState) (line : String) : CondenseState :=
  { s with out := s.out ++ "\n" ++ line }

/-- A line outside of tool results: no line break in front of the first one. -/
def CondenseState.pushPlain (s : CondenseState) (line : String) : CondenseState :=
  if Text.isEmpty s.out then { s with out := s.out ++ line } else s.pushLine line

/-- `({total_remaining} more lines)`, when lines were left out. -/
def CondenseState.flush (s : CondenseState) : CondenseState :=
  if s.inToolResult && 0 < s.totalRemaining then
    s.pushLine ("(" ++ toString s.totalRemaining ++ " more lines)")
  else s

def condenseLine (s : CondenseState) (line : String) : CondenseState :=
  let isHeader := Text.startsWith line "tool_result " || Text.startsWith line "tool_error "
  if Text.endsWith line "more lines)" && Text.startsWith line "(" then
    if s.inToolResult then s.pushLine line else s.pushPlain line
  else if isHeader then
    let s := if s.inToolResult && 0 < s.totalRemaining then { s.flush with totalRemaining := 0 } else s
    { s with inToolResult := true, contentLinesSinceHeader := 0 }.pushLine line
  else if s.inToolResult then
    let s := { s with contentLinesSinceHeader := s.contentLinesSinceHeader + 1 }
    if s.contentLinesSinceHeader ≤ condensedToolResultLines then s.pushLine line
    else { s with totalRemaining := s.totalRemaining + 1 }
  else s.pushPlain line

def condenseTextProtocolToolResults (text : String) : String :=
  let out := ((Text.lines text).foldl condenseLine {}).flush.out
  if Text.startsWith out "\n" && !Text.startsWith text "\n" then String.ofList (out.toList.drop 1)
  else out

def ContentBlock.condense : ContentBlock → ContentBlock
  | .toolResult toolUseId content isError =>
    .toolResult toolUseId (truncateToLines content condensedToolResultLines) isError
  | block => block

/-- The tool results of a user message in short; `isResults` decides it for a text. -/
def ApiMessage.condense (isResults : String → Bool) (message : ApiMessage) : ApiMessage :=
  if message.role ≠ "user" then message
  else
    match message.content with
    | .blocks blocks => { message with content := .blocks (blocks.map ContentBlock.condense) }
    | .text text =>
      if isResults text then
        { message with content := .text (condenseTextProtocolToolResults text) }
      else message

def condenseAllToolResultsForOverflow (messages : List ApiMessage) : List ApiMessage :=
  messages.map (ApiMessage.condense textProtocolToolResultMessage)

/-! ### Where the history is cut -/

/-- The index of the message at which the last `keepTurns` of the messages that count begin; the loop
runs from the last message back, and `messages` is the history in that order. -/
def lastTurnsStart (counts : ApiMessage → Bool) (keepTurns : ℕ) : ℕ → List ApiMessage → Option ℕ
  | _, [] => none
  | userCount, message :: messages =>
    if counts message then
      if keepTurns ≤ userCount + 1 then some messages.length
      else lastTurnsStart counts keepTurns (userCount + 1) messages
    else lastTurnsStart counts keepTurns userCount messages

/-- The loop that moves `keep_start` up to the anchor or to a user request. -/
def scanKeepStart (anchor : Option ℕ) : ℕ → List ApiMessage → ℕ
  | keepStart, [] => keepStart
  | keepStart, message :: messages =>
    if anchor = some keepStart then keepStart
    else if isUserRequest message then keepStart
    else scanKeepStart anchor (keepStart + 1) messages

/-- `keep_start` of `prune_message_history_preserving`, for a history that is too long. -/
def pruneKeepStart (messages : List ApiMessage) (maxApiMessages preserveIndex : ℕ) : ℕ :=
  let len := messages.length
  let targetKeepStart := len - maxApiMessages
  let preserveDistance := targetKeepStart - preserveIndex
  let keepPreserveAnchor := preserveIndex < targetKeepStart ∧ preserveDistance ≤ 2
  let fallbackKeepStart := if keepPreserveAnchor then preserveIndex else targetKeepStart
  let anchor := if keepPreserveAnchor then some preserveIndex else none
  let keepStart := scanKeepStart anchor fallbackKeepStart (messages.drop fallbackKeepStart)
  -- the anchor may lie below the target: clamped back to keep at most `maxApiMessages`
  let keepStart := max keepStart targetKeepStart
  if len ≤ keepStart then min fallbackKeepStart (len - 1) else keepStart

/-- The history and the index of the preserved message in it. -/
def pruneMessageHistoryPreserving (messages : List ApiMessage) (maxApiMessages preserveIndex : ℕ) :
    List ApiMessage × ℕ :=
  if messages = [] then (messages, 0)
  else if messages.length ≤ maxApiMessages then (messages, min preserveIndex (messages.length - 1))
  else
    let keepStart := pruneKeepStart messages maxApiMessages preserveIndex
    if 0 < keepStart then (messages.drop keepStart, preserveIndex - keepStart)
    else (messages, preserveIndex)

/-- `keep_start` of `compact_for_context_overflow_inner`, for a history that is too long. -/
def overflowKeepStart (messages : List ApiMessage) (keepMessages preserveIndex : ℕ) : ℕ :=
  let len := messages.length
  let targetKeepStart := len - keepMessages
  let keepPreserveAnchor := preserveIndex < targetKeepStart
  let fallbackKeepStart := if keepPreserveAnchor then preserveIndex else targetKeepStart
  let anchor := if keepPreserveAnchor then some preserveIndex else none
  let keepStart := scanKeepStart anchor fallbackKeepStart (messages.drop fallbackKeepStart)
  if len ≤ keepStart then min fallbackKeepStart (len - 1) else keepStart

def compactForContextOverflowPreserving (messages : List ApiMessage)
    (keepMessages preserveIndex : ℕ) : List ApiMessage × ℕ :=
  if messages = [] then (messages, 0)
  else
    let keepMessages := max keepMessages 1
    let messages := condenseAllToolResultsForOverflow messages
    let len := messages.length
    if len ≤ keepMessages then (messages, min preserveIndex (len - 1))
    else
      let preserveIndex := min preserveIndex (len - 1)
      let keepStart := overflowKeepStart messages keepMessages preserveIndex
      if 0 < keepStart ∧ keepStart < len then (messages.drop keepStart, preserveIndex - keepStart)
      else (messages, preserveIndex)

/-! ### Compaction with a summary -/

structure CompactionConfig where
  enabled : Bool := false
  thresholdPercent : ℕ := 80
  keepRecentTurns : ℕ := 4
  summaryMaxTokens : ℕ := 1024

def summarizedRequest (summaryText text : String) : String :=
  "[conversation summary] " ++ summaryText ++
    "\n\nUse the summary only as background context. Treat the current request below as " ++
      "authoritative and do not continue earlier file targets unless the current request asks for " ++
      "them.\n\n[current request]\n" ++ text

/-- The summary goes in front of the text of the first message, when that is a user request. -/
def prependSummary (summaryText : String) (messages : List ApiMessage) : List ApiMessage :=
  match messages with
  | [] => []
  | first :: rest =>
    if !Text.isEmpty summaryText && isUserRequest first then
      match first.content with
      | .text text => { first with content := .text (summarizedRequest summaryText text) } :: rest
      | .blocks _ => first :: rest
    else first :: rest

/-- The history and the number of messages removed. -/
def compactWithSummary (messages : List ApiMessage) (keepRecentTurns : ℕ) (summaryText : String) :
    List ApiMessage × ℕ :=
  let boundary := (lastTurnsStart isUserRequest keepRecentTurns 0 messages.reverse).getD 0
  if boundary = 0 then (messages, 0)
  else (prependSummary summaryText (messages.drop boundary), boundary)

def summaryUserTextLine (text : String) : Option String :=
  match Text.splitOnce text "[current request]\n" with
  | some (_, currentRequest) =>
    ((Text.lines currentRequest).map Text.trim).find? fun line => !Text.isEmpty line
  | none =>
    ((Text.lines text).map Text.trim).find? fun line =>
      !Text.isEmpty line && !Text.startsWith line "[conversation summary]" &&
        !Text.startsWith line "Use the summary only as background context." &&
        !Text.startsWith line "Treat the current request below as authoritative"

def ContentBlock.summaryLine : ContentBlock → Option String
  | .text body => (Text.lines body).head?
  | .toolUse _ name _ => some ("[tool: " ++ name ++ "]")
  | .toolResult _ content _ => (Text.lines content).head?

def summaryEntry (message : ApiMessage) : Option String :=
  if !isUserRequest message then none
  else
    let firstLine := match message.content with
      | .text text => (summaryUserTextLine text).getD ""
      | .blocks blocks => (blocks.findSome? ContentBlock.summaryLine).getD ""
    if Text.isEmpty firstLine then none else some ("- " ++ message.role ++ ": " ++ firstLine)

/-- The entries up to the first that would pass the limit in bytes. -/
def takeEntries (maxBytes : ℕ) : ℕ → List String → List String
  | _, [] => []
  | totalBytes, entry :: entries =>
    let totalBytes := totalBytes + entry.utf8ByteSize
    if maxBytes < totalBytes then [] else entry :: takeEntries maxBytes totalBytes entries

def buildHeuristicSummary (messages : List ApiMessage) (keepRecentTurns maxTokens : ℕ) : String :=
  let boundary := (lastTurnsStart isUserRequest keepRecentTurns 0 messages.reverse).getD 0
  Text.join "\n" (takeEntries (maxTokens * 4) 0 ((messages.take boundary).filterMap summaryEntry))

/-- `toJson` is `Value::to_string`. -/
def ContentBlock.historyBytes (toJson : Value → List Char) : ContentBlock → ℕ
  | .text body => body.utf8ByteSize
  | .toolUse _ _ input => byteLen (toJson input)
  | .toolResult _ content _ => content.utf8ByteSize

def estimateHistoryTokens (toJson : Value → List Char) (messages : List ApiMessage) : ℕ :=
  (messages.map fun message =>
    match message.content with
    | .text text => text.utf8ByteSize
    | .blocks blocks => (blocks.map (ContentBlock.historyBytes toJson)).sum).sum / 4

def shouldCompactProactively (toJson : Value → List Char) (messages : List ApiMessage)
    (config : CompactionConfig) (contextWindowTokens : ℕ) : Bool :=
  if !config.enabled || contextWindowTokens = 0 then false
  else contextWindowTokens * config.thresholdPercent / 100 < estimateHistoryTokens toJson messages

def effectiveProactiveCompactionConfig (config : CompactionConfig)
    (isLocalEndpoint requiresToolEvidence : Bool) : CompactionConfig :=
  if config.enabled || !isLocalEndpoint || !requiresToolEvidence then config
  else { enabled := true, thresholdPercent := 60, keepRecentTurns := 1, summaryMaxTokens := 384 }

def shouldForceLocalHandoffCompaction (config : CompactionConfig)
    (isLocalEndpoint requiresToolEvidence : Bool) (messages : List ApiMessage) : Bool :=
  !config.enabled && isLocalEndpoint && requiresToolEvidence && 2 ≤ messages.length

/-- The history, and the numbers of messages before and after with the summary when it ran. -/
def runProactiveCompaction (toJson : Value → List Char) (config : CompactionConfig)
    (isLocalEndpoint : Bool) (messages : List ApiMessage) (contextWindowTokens : ℕ)
    (requiresToolEvidence : Bool) : List ApiMessage × Option (ℕ × ℕ × String) :=
  let effective := effectiveProactiveCompactionConfig config isLocalEndpoint requiresToolEvidence
  if !shouldForceLocalHandoffCompaction config isLocalEndpoint requiresToolEvidence messages &&
      !shouldCompactProactively toJson messages effective contextWindowTokens then (messages, none)
  else
    let keep := effective.keepRecentTurns
    let summary := buildHeuristicSummary messages keep effective.summaryMaxTokens
    let (compacted, removed) := compactWithSummary messages keep summary
    if removed = 0 then (compacted, none)
    else (compacted, some (messages.length, compacted.length, summary))

/-! ### Condensing old results -/

/-- The messages in front of the last `keepTurns` messages of the user, tool results included. -/
def condenseOldBoundary (messages : List ApiMessage) (keepTurns : ℕ) : ℕ :=
  (lastTurnsStart (·.role = "user") keepTurns 0 messages.reverse).getD messages.length

def mentionsToolResult (text : String) : Bool :=
  Text.contains text "tool_result " || Text.contains text "tool_error "

def condenseOldToolResults (messages : List ApiMessage) (keepTurns : ℕ) : List ApiMessage :=
  let boundary := condenseOldBoundary messages keepTurns
  if messages.length ≤ boundary ∨ boundary = 0 then messages
  else (messages.take boundary).map (ApiMessage.condense mentionsToolResult) ++ messages.drop boundary

end Vexcoder.Conversation

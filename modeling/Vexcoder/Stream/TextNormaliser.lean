import Vexcoder.Base.Json

/-!
# The text normaliser of a model stream

`StreamTextNormaliser` turns the text of one stream block into plain text and tool calls.  A call
is written either as `<function=name>…</function>` or as `<tool_call>{…}</tool_call>`; text that
may be the start of a tag waits in `pending` for the next delta.

`normaliseStep` is one turn of the loop of `normalise`: the text in front of the first tag, which
is always pushed with its wrappers stripped, and what happens at the tag.
-/

namespace Vexcoder.Stream

open Base Lib.Search

inductive NormalisedChunk where
  | text (s : List Char)
  | taggedToolCall (name : String) (input : Value)
  deriving DecidableEq

structure StreamTextNormaliser where
  pending : List Char := []

def functionTag : List Char := "<function=".toList
def functionClose : List Char := "</function>".toList
def parameterTag : List Char := "<parameter=".toList
def parameterClose : List Char := "</parameter>".toList
def toolCallTag : List Char := "<tool_call>".toList
def toolCallClose : List Char := "</tool_call>".toList

def pushTextChunk (text : List Char) : List NormalisedChunk :=
  if text.isEmpty then [] else [.text text]

def stripToolCallWrappers (text : List Char) : List Char :=
  replaceAll toolCallClose [] (replaceAll toolCallTag [] text)

/-! ### Incomplete tags -/

def partialToolTags : List (List Char) :=
  ["<function=", "<function", "</function>", "</function", "<parameter=", "<parameter",
    "</parameter>", "</parameter", "<tool_call>", "<tool_call", "</tool_call>",
    "</tool_call"].map String.toList

def looksLikePartialToolTag (suffix : List Char) : Bool :=
  partialToolTags.any fun candidate => (toAsciiLowercase suffix).isPrefixOf candidate

def splitIncompleteToolTagSuffix (text : List Char) : List Char × List Char :=
  match rfindElem '<' text with
  | none => (text, [])
  | some lastOpen =>
    if looksLikePartialToolTag (text.drop lastOpen) then (text.take lastOpen, text.drop lastOpen)
    else (text, [])

def stripIncompleteToolTagSuffix (text : List Char) : List Char :=
  (splitIncompleteToolTagSuffix text).1

/-! ### Tagged parameters -/

def normalizeTaggedParameterValue (raw : List Char) : List Char :=
  let value := replaceAll ['\r', '\n'] ['\n'] raw
  let value := match value with
    | '\n' :: rest => rest
    | _ => value
  if value.getLast? = some '\n' then value.dropLast else value

def taggedParameterJsonValue (codec : JsonCodec) (raw : List Char) : Value :=
  let value := normalizeTaggedParameterValue raw
  let trimmed := trim value
  if trimmed.isEmpty then .string (String.ofList value)
  else
    match codec.fromStr trimmed with
    | some (.string _) | none =>
      match parseU64 trimmed, parseI64 trimmed, codec.parseF64 trimmed with
      | some n, _, _ => .number (.posInt n)
      | none, some i, _ => .number (Number.ofInt i)
      | none, none, some number => .number number
      | none, none, none => .string (String.ofList value)
    | some parsed => parsed

def trimQuotes (s : List Char) : List Char := trimMatches '\'' (trimMatches '"' (trim s))

/-- The loop of `parse_tagged_parameters`, on the body that is left; the cursor moves past a
`<parameter=` in every turn, so the length of the body bounds the turns. -/
def parseTaggedParametersFrom (codec : JsonCodec) :
    ℕ → List Char → List (String × Value) → List (String × Value)
  | 0, _, input => input
  | fuel + 1, body, input =>
    match find parameterTag body with
    | none => input
    | some parameterRel =>
      let keyText := body.drop (parameterRel + parameterTag.length)
      match find ['>'] keyText with
      | none => input
      | some keyEnd =>
        let key := trimQuotes (keyText.take keyEnd)
        let valueText := keyText.drop (keyEnd + 1)
        let bounds : ℕ × ℕ :=
          match find parameterClose valueText, find parameterTag valueText with
          | some close, some next =>
            if next < close then (next, next) else (close, close + parameterClose.length)
          | some close, none => (close, close + parameterClose.length)
          | none, some next => (next, next)
          | none, none => (valueText.length, valueText.length)
        let input :=
          if key.isEmpty then input
          else Value.insertMember (String.ofList key)
            (taggedParameterJsonValue codec (valueText.take bounds.1)) input
        parseTaggedParametersFrom codec fuel (valueText.drop bounds.2) input

def parseTaggedParameters (codec : JsonCodec) (body : List Char) : List (String × Value) :=
  parseTaggedParametersFrom codec (body.length + 1) body []

/-! ### The two grammars of a call -/

/-- `parse_single_tagged_tool_call`; the outer `none` is the panic of the slice that cuts the body
out of `raw` when the first `>` is the one of the closing tag. -/
def parseSingleTaggedToolCall (codec : JsonCodec) (raw : List Char) : Option (Option (String × Value)) :=
  let nameStart := functionTag.length
  match find ['>'] (raw.drop nameStart) with
  | none => some none
  | some nameEndRel =>
    let nameEnd := nameStart + nameEndRel
    let name := trimQuotes ((raw.take nameEnd).drop nameStart)
    if name.isEmpty then some none
    else
      let bodyEnd := raw.length - functionClose.length
      if bodyEnd < nameEnd + 1 then none
      else
        let body := (raw.take bodyEnd).drop (nameEnd + 1)
        let params := parseTaggedParameters codec body
        if params.isEmpty then
          let trimmedBody := trim body
          match if trimmedBody.head? = some '{' then codec.fromStr trimmedBody else none with
          | some (.object members) => some (some (String.ofList name, .object members))
          | _ => some (some (String.ofList name, .object params))
        else some (some (String.ofList name, .object params))

def parseHermesJsonToolCall (codec : JsonCodec) (content : List Char) : Option (String × Value) := do
  let obj ← codec.fromStr content
  let name := trim (← (← obj.get? "name").asStr).toList
  if name.isEmpty then none
  else
    let input := match obj.get? "arguments" with
      | some (.string s) => (codec.fromStr s.toList).getD Value.emptyObject
      | some v => v
      | none => Value.emptyObject
    some (String.ofList name, input)

/-- A `<tool_call>` followed, past white space, by the brace of a JSON object. -/
def hermesHere (text : List Char) : Bool :=
  toolCallTag.isPrefixOf text && (trimStart (text.drop toolCallTag.length)).head? == some '{'

/-- `find_hermes_json_tool_call`: the first `<tool_call>` that passes the check; after one that
does not, the source searches again from the next offset. -/
def findHermesJsonToolCall (text : List Char) : Option ℕ := findFirst hermesHere text

/-! ### The loop -/

inductive NextTag where
  | none
  | function (start : ℕ)
  | hermes (start : ℕ)
  deriving DecidableEq

/-- The tag that the loop handles next. -/
def nextTag (pending : List Char) : NextTag :=
  match find functionTag pending, findHermesJsonToolCall pending with
  | none, none => .none
  | some fs, none => .function fs
  | none, some hs => .hermes hs
  | some fs, some hs => if hs < fs then .hermes hs else .function fs

inductive TagOutcome where
  /-- The loop ends and leaves this text pending. -/
  | wait (pending : List Char)
  /-- The tag is closed: its chunks are pushed, and the loop goes on with the rest. -/
  | closed (chunks : List NormalisedChunk) (rest : List Char)
  | panic

def skipToolCallClosesFrom : ℕ → List Char → List Char
  | 0, text => text
  | fuel + 1, text =>
    if toolCallClose <+: text then skipToolCallClosesFrom fuel (text.drop toolCallClose.length)
    else text

/-- The `while` loop past the closing wrappers of a function call. -/
def skipToolCallCloses (text : List Char) : List Char := skipToolCallClosesFrom text.length text

/-- What happens at a `<tool_call>{`, with which `remaining` starts. -/
def hermesOutcome (codec : JsonCodec) (remaining : List Char) : TagOutcome :=
  match find toolCallClose remaining with
  | none => .wait remaining
  | some closeRel =>
    let content := trim ((remaining.take closeRel).drop toolCallTag.length)
    let chunks := match parseHermesJsonToolCall codec content with
      | some (name, input) => [.taggedToolCall name input]
      | none => []
    .closed chunks (remaining.drop (closeRel + toolCallClose.length))

/-- What happens at a `<function=`, with which `remaining` starts. -/
def functionOutcome (codec : JsonCodec) (remaining : List Char) : TagOutcome :=
  match find functionClose remaining with
  | none => .wait remaining
  | some functionCloseRel =>
    let functionEnd := functionCloseRel + functionClose.length
    let rawFunction := remaining.take functionEnd
    match parseSingleTaggedToolCall codec rawFunction with
    | none => .panic
    | some parsed =>
      let chunks := match parsed with
        | some (name, input) => [.taggedToolCall name input]
        | none => pushTextChunk (stripToolCallWrappers rawFunction)
      .closed chunks (skipToolCallCloses (remaining.drop functionEnd))

/-- One turn of the loop: the text before the first tag, and what happens at the tag. -/
def normaliseStep (codec : JsonCodec) (pending : List Char) : List Char × TagOutcome :=
  match nextTag pending with
  | .none =>
    ((splitIncompleteToolTagSuffix pending).1, .wait (splitIncompleteToolTagSuffix pending).2)
  | .hermes hs => (pending.take hs, hermesOutcome codec (pending.drop hs))
  | .function fs => (pending.take fs, functionOutcome codec (pending.drop fs))

/-- The chunks pushed and the text left pending; `none` when the loop panics. -/
def normaliseLoop (codec : JsonCodec) : ℕ → List Char → Option (List NormalisedChunk × List Char)
  | 0, _ => none
  | fuel + 1, pending =>
    let before := pushTextChunk (stripToolCallWrappers (normaliseStep codec pending).1)
    match (normaliseStep codec pending).2 with
    | .wait rest => some (before, rest)
    | .closed chunks rest =>
      (normaliseLoop codec fuel rest).map fun (later, left) => (before ++ chunks ++ later, left)
    | .panic => none

/-- The loop on a whole buffer; every turn shortens it, so its length bounds the turns. -/
def normaliseBuffer (codec : JsonCodec) (pending : List Char) : Option (List NormalisedChunk × List Char) :=
  normaliseLoop codec (pending.length + 1) pending

namespace StreamTextNormaliser

def normalise (codec : JsonCodec) (n : StreamTextNormaliser) (text : List Char) :
    Option (List NormalisedChunk × StreamTextNormaliser) :=
  if text.isEmpty then some ([], n)
  else (normaliseBuffer codec (n.pending ++ text)).map fun (chunks, left) => (chunks, ⟨left⟩)

def finish (n : StreamTextNormaliser) : List NormalisedChunk :=
  pushTextChunk (stripToolCallWrappers (stripIncompleteToolTagSuffix n.pending))

/-- `normalise` on each chunk in turn, then `finish`. -/
def feed (codec : JsonCodec) (n : StreamTextNormaliser) : List (List Char) → Option (List NormalisedChunk)
  | [] => some n.finish
  | chunk :: chunks =>
    (n.normalise codec chunk).bind fun (pushed, n') => (n'.feed codec chunks).map (pushed ++ ·)

end StreamTextNormaliser

end Vexcoder.Stream

import Vexcoder.Stream.IngressAdapter

/-!
# Framing of server-sent events

`StreamParser::process` collects the bytes that arrive, cuts off every frame that is complete and
handles its text.  What the JSON library reads from the data of a frame is given by an `SseDecoder`.
A frame that is not UTF-8 makes `process` return an error, and the envelopes of the frames before it
in the same chunk are lost.
-/

namespace Vexcoder.Base

/-- `String::from_utf8`. -/
def fromUtf8 (bytes : List UInt8) : Option (List Char) :=
  (ByteArray.mk bytes.toArray).utf8Decode?.map Array.toList

end Vexcoder.Base

namespace Vexcoder.Stream

open Base Lib Lib.Search Lib.Emitter Vexcoder.Runtime
open Handoff

def maxSseBufferBytes : ℕ := 1048576

/-- How the JSON library reads the data of a frame. -/
structure SseDecoder extends Ingress where
  /-- `serde_json::from_str::<RuntimeEnvelope>` -/
  envelope : List Char → Option RuntimeEnvelope
  /-- `serde_json::from_str::<ProviderStreamItem>`, with the text of its error. -/
  providerItem : List Char → Except String ProviderStreamItem
  /-- `serde_json::from_str::<ChatCompatChunk>` -/
  chatCompatChunk : List Char → Option ChatCompatChunk

/-! ### Bytes -/

def lineFeed : UInt8 := 10

def carriageReturn : UInt8 := 13

/-- `sse_line_terminator_len`, of the buffer from an index on. -/
def sseLineTerminatorLen : List UInt8 → Option ℕ
  | [] => none
  | b :: buffer =>
    if b = lineFeed then some 1
    else if b = carriageReturn then
      if buffer.head? = some lineFeed then some 2 else some 1
    else none

/-- The search from an index; the buffer is what is left of it there.  The fuel is its length. -/
def findSseFrameDelimiterFrom : ℕ → ℕ → List UInt8 → Option (ℕ × ℕ)
  | 0, _, _ => none
  | fuel + 1, index, buffer =>
    if buffer.isEmpty then none
    else
      match sseLineTerminatorLen buffer with
      | none => findSseFrameDelimiterFrom fuel (index + 1) (buffer.drop 1)
      | some firstLen =>
        match sseLineTerminatorLen (buffer.drop firstLen) with
        | some secondLen => some (index, firstLen + secondLen)
        | none => findSseFrameDelimiterFrom fuel (index + firstLen) (buffer.drop firstLen)

/-- Where the first frame ends, and the length of the blank line behind it. -/
def findSseFrameDelimiter (buffer : List UInt8) : Option (ℕ × ℕ) :=
  findSseFrameDelimiterFrom buffer.length 0 buffer

def utf8Bom : List UInt8 := [0xEF, 0xBB, 0xBF]

/-! ### Lines -/

def stripSingleLeadingSpace : List Char → List Char
  | ' ' :: value => value
  | value => value

/-- `frame.replace("\r\n", "\n").replace('\r', "\n")` -/
def normaliseSseLineEndings : List Char → List Char
  | [] => []
  | '\r' :: '\n' :: frame => '\n' :: normaliseSseLineEndings frame
  | c :: frame => (if c = '\r' then '\n' else c) :: normaliseSseLineEndings frame

def looksLikeRawJsonPayload (codec : JsonCodec) (text : List Char) : Bool :=
  let trimmed := trim text
  !trimmed.isEmpty &&
    (trimmed == "[DONE]".toList ||
      ((trimmed.head? == some '\x7b' || trimmed.head? == some '[') && (codec.fromStr trimmed).isSome))

def sseFrameWithoutDataShouldError (codec : JsonCodec) (frame : List Char) : Bool :=
  (((splitOn '\n' frame).map trim).filter fun line => !line.isEmpty && line.head? != some ':').any
    (looksLikeRawJsonPayload codec)

/-- `str::strip_prefix`. -/
def stripPrefix (pattern line : List Char) : Option (List Char) :=
  if pattern <+: line then some (line.drop pattern.length) else none

/-- What the lines of a frame set. -/
structure FrameFields where
  frameKind : Option (List Char) := none
  dataLines : List (List Char) := []
  lastFrameId : Option String
  reconnectDelayMs : Option ℕ

def readLine (fields : FrameFields) (line : List Char) : FrameFields :=
  if line.isEmpty || line.head? == some ':' then fields
  else
    match stripPrefix "event:".toList line with
    | some rest => { fields with frameKind := some (stripSingleLeadingSpace rest) }
    | none =>
    match stripPrefix "data:".toList line with
    | some rest =>
      { fields with dataLines := fields.dataLines ++ [stripSingleLeadingSpace rest] }
    | none =>
    match stripPrefix "id:".toList line with
    | some rest =>
      let val := stripSingleLeadingSpace rest
      if '\x00' ∈ val then fields else { fields with lastFrameId := some (String.ofList val) }
    | none =>
    if line = "id".toList then { fields with lastFrameId := some "" }
    else
      match (stripPrefix "retry:".toList line).bind fun rest =>
        parseU64 (stripSingleLeadingSpace rest) with
      | some ms => { fields with reconnectDelayMs := some ms }
      | none => fields

namespace StreamParser

variable (decoder : SseDecoder)

/-! ### Frames -/

def decodeProtocolFrame (frameKind : Option (List Char)) (jsonData : List Char) :
    IngressPayload :=
  if frameKind = some "ping".toList then .provider .ping
  else
    match decoder.providerItem jsonData with
    | .ok item => .provider item
    | .error messagesV1Error =>
      if jsonData = "[DONE]".toList then .chatCompat .done
      else
        match decoder.chatCompatChunk jsonData with
        | some chunk => .chatCompat (.chunk chunk)
        | none => .provider (.error "sse_parse_error" messagesV1Error)

def decodeFramePayload (frameKind : Option (List Char)) (jsonData : List Char) : Parse Unit :=
  if jsonData.isEmpty then pure ()
  else
    match decoder.envelope jsonData with
    | some envelope => enterRuntimeEnvelopeMode decoder.toIngress envelope
    | none => adaptProtocolPayload decoder.toIngress (decodeProtocolFrame decoder frameKind jsonData)

/-- `parse_sse_frame_bytes`, of a frame that is UTF-8. -/
def parseSseFrameText (frameText : List Char) : Parse Unit := do
  let s ← read
  let normalisedFrame := normaliseSseLineEndings frameText
  let fields := (splitOn '\n' normalisedFrame).foldl readLine
    { lastFrameId := s.lastFrameId, reconnectDelayMs := s.reconnectDelayMs }
  modify fun s => { s with
    lastFrameId := fields.lastFrameId
    reconnectDelayMs := fields.reconnectDelayMs }
  if fields.dataLines.isEmpty then
    if sseFrameWithoutDataShouldError decoder.codec normalisedFrame then do
      emit (← protocolStreamErrorEnvelope decoder.toIngress "sse_parse_error"
        ("received a non-SSE payload without a data field; raw JSON chunk streams " ++
          "are unsupported"))
    else pure ()
  else
    decodeFramePayload decoder fields.frameKind (['\n'].intercalate fields.dataLines)

/-! ### Chunks -/

def stripUtf8BomOnce (s : StreamParser) : StreamParser :=
  if s.bomChecked then s
  else if utf8Bom <+: s.buffer then
    { s with buffer := s.buffer.drop utf8Bom.length, bomChecked := true }
  else if s.buffer.isEmpty then s
  else
    let prefixLen := min s.buffer.length utf8Bom.length
    if prefixLen = utf8Bom.length ∨ s.buffer.take prefixLen ≠ utf8Bom.take prefixLen then
      { s with bomChecked := true }
    else s

def sseOverflowFrame : Parse Unit := do
  emit (← protocolStreamErrorEnvelope decoder.toIngress "sse_buffer_overflow"
    ("SSE intra-frame buffer exceeded " ++ toString maxSseBufferBytes ++
      " bytes without a frame delimiter; the upstream stream may be malformed"))

/-- A frame that is not UTF-8: the error of `process`. -/
inductive FrameError where
  | notUtf8

/-- What `process` returns, and the parser behind it; `none` is a panic. -/
abbrev Processed := Option (Except FrameError (List RuntimeEnvelope) × StreamParser)

def returned : Option (Unit × List RuntimeEnvelope × StreamParser) → Processed
  | none => none
  | some (_, out, s) => some (.ok out, s)

/-- The loop of `process`; the fuel is the length of the buffer, which every turn shortens. -/
def processFrames : ℕ → List RuntimeEnvelope → StreamParser → Processed
  | 0, frames, s => some (.ok frames, s)
  | fuel + 1, frames, s =>
    match findSseFrameDelimiter s.buffer with
    | none => some (.ok frames, s)
    | some (pos, delimLen) =>
      let drained := { s with buffer := s.buffer.drop (pos + delimLen) }
      match fromUtf8 (s.buffer.take pos) with
      | none => some (.error .notUtf8, drained)
      | some frameText =>
        match parseSseFrameText decoder frameText drained with
        | none => none
        | some (_, out, s') => processFrames fuel (frames ++ out) s'

def process (chunk : List UInt8) (s : StreamParser) : Processed :=
  if s.overflowed then returned (sseOverflowFrame decoder s)
  else if s.buffer.length + chunk.length > maxSseBufferBytes then
    returned (sseOverflowFrame decoder { s with overflowed := true })
  else
    let s' := stripUtf8BomOnce { s with buffer := s.buffer ++ chunk }
    processFrames decoder s'.buffer.length [] s'

/-- The results of `process` on each chunk in turn. -/
def processChunks : List (List UInt8) → StreamParser →
    Option (List (Except FrameError (List RuntimeEnvelope)) × StreamParser)
  | [], s => some ([], s)
  | chunk :: chunks, s =>
    match process decoder chunk s with
    | none => none
    | some (result, s') => (processChunks chunks s').map fun (results, s'') => (result :: results, s'')

end StreamParser

end Vexcoder.Stream

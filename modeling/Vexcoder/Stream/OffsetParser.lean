import Vexcoder.Base.Slices
import Vexcoder.Stream.TextNormaliser

/-!
# The text normaliser at byte offsets

The functions of `Vexcoder.Stream.TextNormaliser` as the source computes them: every position is a byte
offset into a string, every slice may panic, and every loop may run on.  The loops have a bound here,
and reaching it is a fault of its own.
-/

namespace Vexcoder.Stream

open Base Lib.Search

inductive Fault where
  /-- A slice whose ends are out of order, out of range or inside a character. -/
  | slice
  /-- A loop that has not ended within its bound. -/
  | endless
  deriving DecidableEq

def orSliceFault {α : Type} : Option α → Except Fault α
  | some a => .ok a
  | none => .error .slice

/-- `&s[a..b]` -/
def between (a b : ℕ) (s : List Char) : Except Fault (List Char) := orSliceFault (sliceBytes a b s)

/-- `&s[a..]` -/
def onFrom (a : ℕ) (s : List Char) : Except Fault (List Char) := orSliceFault (sliceFrom a s)

/-- `&s[..b]` -/
def upTo (b : ℕ) (s : List Char) : Except Fault (List Char) := orSliceFault (sliceTo b s)

/-- `str::find` -/
def findOffset (pat s : List Char) : Option ℕ := (find pat s).map fun i => byteLen (s.take i)

/-- `str::rfind` for one character. -/
def rfindOffset (c : Char) (s : List Char) : Option ℕ :=
  (rfindElem c s).map fun i => byteLen (s.take i)

/-! ### The parameters of a call -/

def valueBounds (bodyLen valueStart : ℕ) (parameterClose nextParameter : Option ℕ) : ℕ × ℕ :=
  match parameterClose.map (valueStart + ·), nextParameter.map (valueStart + ·) with
  | some close, some next =>
    if next < close then (next, next) else (close, close + byteLen Stream.parameterClose)
  | some close, none => (close, close + byteLen Stream.parameterClose)
  | none, some next => (next, next)
  | none, none => (bodyLen, bodyLen)

/-- The loop of `parse_tagged_parameters`. -/
def parametersLoop (codec : JsonCodec) (body : List Char) :
    ℕ → ℕ → List (String × Value) → Except Fault (List (String × Value))
  | 0, _, _ => .error .endless
  | fuel + 1, parameterCursor, input => do
    let rest ← onFrom parameterCursor body
    match findOffset parameterTag rest with
    | none => .ok input
    | some parameterRel =>
      let parameterStart := parameterCursor + parameterRel
      let keyStart := parameterStart + byteLen parameterTag
      let keyText ← onFrom keyStart body
      match findOffset ['>'] keyText with
      | none => .ok input
      | some keyEndRel =>
        let keyEnd := keyStart + keyEndRel
        let key ← between keyStart keyEnd body
        let valueStart := keyEnd + 1
        let valueText ← onFrom valueStart body
        let (valueEnd, nextCursor) := valueBounds (byteLen body) valueStart
          (findOffset parameterClose valueText) (findOffset parameterTag valueText)
        let input ←
          if (trimQuotes key).isEmpty then .ok input
          else do
            let value ← between valueStart valueEnd body
            .ok (Value.insertMember (String.ofList (trimQuotes key))
              (taggedParameterJsonValue codec value) input)
        parametersLoop codec body fuel (max nextCursor (parameterStart + 1)) input

def parametersAt (codec : JsonCodec) (body : List Char) : Except Fault (List (String × Value)) :=
  parametersLoop codec body (body.length + 1) 0 []

/-- `parse_single_tagged_tool_call` -/
def singleCallAt (codec : JsonCodec) (raw : List Char) : Except Fault (Option (String × Value)) := do
  let nameStart := byteLen functionTag
  match findOffset ['>'] (← onFrom nameStart raw) with
  | none => .ok none
  | some nameEndRel =>
    let nameEnd := nameStart + nameEndRel
    let name := trimQuotes (← between nameStart nameEnd raw)
    if name.isEmpty then .ok none
    else
      let body ← between (nameEnd + 1) (byteLen raw - byteLen functionClose) raw
      let params ← parametersAt codec body
      if params.isEmpty then
        let trimmedBody := trim body
        match if trimmedBody.head? = some '{' then codec.fromStr trimmedBody else none with
        | some (.object members) => .ok (some (String.ofList name, .object members))
        | _ => .ok (some (String.ofList name, .object params))
      else .ok (some (String.ofList name, .object params))

/-! ### The loop of `normalise` -/

/-- The loop of `find_hermes_json_tool_call`. -/
def hermesLoop (text : List Char) : ℕ → ℕ → Except Fault (Option ℕ)
  | 0, _ => .error .endless
  | fuel + 1, searchFrom => do
    match findOffset toolCallTag (← onFrom searchFrom text) with
    | none => .ok none
    | some rel =>
      let abs := searchFrom + rel
      let afterTag ← onFrom (abs + byteLen toolCallTag) text
      if (trimStart afterTag).head? = some '{' then .ok (some abs)
      else hermesLoop text fuel (abs + 1)

def hermesAt (text : List Char) : Except Fault (Option ℕ) := hermesLoop text (text.length + 1) 0

/-- `split_incomplete_tool_tag_suffix` -/
def splitSuffixAt (text : List Char) : Except Fault (List Char × List Char) :=
  match rfindOffset '<' text with
  | none => .ok (text, [])
  | some lastOpen => do
    let suffix ← onFrom lastOpen text
    if looksLikePartialToolTag suffix then .ok (← upTo lastOpen text, suffix) else .ok (text, [])

/-- The loop past the closing wrappers: the cursor behind them. -/
def skipClosesLoop (remaining : List Char) : ℕ → ℕ → Except Fault ℕ
  | 0, _ => .error .endless
  | fuel + 1, nextCursor => do
    let rest ← onFrom nextCursor remaining
    if toolCallClose <+: rest then
      skipClosesLoop remaining fuel (nextCursor + byteLen toolCallClose)
    else .ok nextCursor

/-- One turn of the loop: the chunks pushed, the text left, and whether the loop goes on. -/
structure Turn where
  chunks : List NormalisedChunk
  pending : List Char
  again : Bool

/-- The turn at a `<tool_call>{`. -/
def hermesTurn (codec : JsonCodec) (pending : List Char) (hs : ℕ) : Except Fault Turn := do
  let chunks := pushTextChunk (stripToolCallWrappers (← upTo hs pending))
  let remaining ← onFrom hs pending
  match findOffset toolCallClose remaining with
  | none => .ok ⟨chunks, remaining, false⟩
  | some closeRel =>
    let content := trim (← between (byteLen toolCallTag) closeRel remaining)
    let calls := match parseHermesJsonToolCall codec content with
      | some (name, input) => [.taggedToolCall name input]
      | none => []
    let rest ← onFrom (closeRel + byteLen toolCallClose) remaining
    .ok ⟨chunks ++ calls, rest, true⟩

/-- The turn at a `<function=`. -/
def functionTurn (codec : JsonCodec) (pending : List Char) (functionStart : ℕ) :
    Except Fault Turn := do
  let chunks := pushTextChunk (stripToolCallWrappers (← upTo functionStart pending))
  let remaining ← onFrom functionStart pending
  match findOffset functionClose remaining with
  | none => .ok ⟨chunks, remaining, false⟩
  | some functionCloseRel =>
    let functionEnd := functionCloseRel + byteLen functionClose
    let rawFunction ← upTo functionEnd remaining
    let calls := match ← singleCallAt codec rawFunction with
      | some (name, input) => [.taggedToolCall name input]
      | none => pushTextChunk (stripToolCallWrappers rawFunction)
    let nextCursor ← skipClosesLoop remaining (remaining.length + 1) functionEnd
    let rest ← onFrom nextCursor remaining
    .ok ⟨chunks ++ calls, rest, true⟩

def turnAt (codec : JsonCodec) (pending : List Char) : Except Fault Turn := do
  let functionStart := findOffset functionTag pending
  let hermesStart ← hermesAt pending
  match functionStart, hermesStart with
  | none, none =>
    let (textPrefix, pendingSuffix) ← splitSuffixAt pending
    .ok ⟨pushTextChunk (stripToolCallWrappers textPrefix), pendingSuffix, false⟩
  | some fs, none => functionTurn codec pending fs
  | none, some hs => hermesTurn codec pending hs
  | some fs, some hs => if hs < fs then hermesTurn codec pending hs else functionTurn codec pending fs

def normaliseLoopAt (codec : JsonCodec) : ℕ → List Char → Except Fault (List NormalisedChunk × List Char)
  | 0, _ => .error .endless
  | fuel + 1, pending => do
    let turn ← turnAt codec pending
    if turn.again then
      let (later, left) ← normaliseLoopAt codec fuel turn.pending
      .ok (turn.chunks ++ later, left)
    else .ok (turn.chunks, turn.pending)

namespace StreamTextNormaliser

def normaliseAt (codec : JsonCodec) (n : StreamTextNormaliser) (text : List Char) :
    Except Fault (List NormalisedChunk × StreamTextNormaliser) :=
  if text.isEmpty then .ok ([], n)
  else do
    let pending := n.pending ++ text
    let (chunks, left) ← normaliseLoopAt codec (pending.length + 1) pending
    .ok (chunks, ⟨left⟩)

def finishAt (n : StreamTextNormaliser) : Except Fault (List NormalisedChunk) := do
  let (text, _) ← splitSuffixAt n.pending
  .ok (pushTextChunk (stripToolCallWrappers text))

/-- `normalise` on each text in turn, then `finish`. -/
def feedAt (codec : JsonCodec) (n : StreamTextNormaliser) :
    List (List Char) → Except Fault (List NormalisedChunk)
  | [] => n.finishAt
  | text :: texts => do
    let (pushed, n') ← n.normaliseAt codec text
    let later ← n'.feedAt codec texts
    .ok (pushed ++ later)

end StreamTextNormaliser

end Vexcoder.Stream

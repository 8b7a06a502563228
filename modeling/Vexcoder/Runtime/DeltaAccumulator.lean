import Vexcoder.Base.Slices
import Vexcoder.Lib.Assoc
import Vexcoder.Lib.Capped

/-!
# The accumulator of tool call deltas

Each tool call that streams its arguments has an entry: the text stored so far, up to a limit, and a
queue of the last deltas.  The entries stand in a hash map, so the order in which a call walks over
them (`HashOrder`) is arbitrary, and so is the reading of the clock.  An operation returns the map it
leaves, the signals it hands to the channel of peer updates, and its reply.
-/

namespace Vexcoder.Runtime

open Base
open Lib

abbrev ToolCallId := String

def maxStoredPartialBytes : ℕ := 65536

def maxToolDeltaQueueDepth : ℕ := 32

inductive PeerDelta where
  | toolStart (toolCallId : ToolCallId) (taskId name : String)
  | toolDelta (toolCallId : ToolCallId) (taskId : String) (partialJson : List Char)
  | toolFinish (toolCallId : ToolCallId) (taskId : String)
  | partialArgsTruncated (toolCallId : ToolCallId) (taskId : String) (storedBytes : ℕ)
  deriving DecidableEq

structure ToolState where
  id : ToolCallId
  taskId : String
  name : String
  partialArgs : List Char
  partialArgsTruncated : Bool
  finished : Bool
  deltaQueue : List (List Char)
  lastActivity : ℕ
  deriving DecidableEq

inductive AccumulationError where
  | unknownId (id : ToolCallId)
  | duplicateId (id : ToolCallId)
  | malformedPartial
  | memoryPressure

abbrev ToolMap := List (ToolCallId × ToolState)

/-- The order in which a walk over a hash map meets its entries. -/
structure HashOrder where
  walk : ToolMap → ToolMap
  perm : ∀ m, (walk m).Perm m

def HashOrder.asStored : HashOrder := ⟨id, fun m => List.Perm.refl m⟩

structure DeltaAccumulator where
  state : ToolMap
  memoryWatermarkBytes : ℕ

def DeltaAccumulator.new (memoryWatermarkBytes : ℕ) : DeltaAccumulator :=
  { state := [], memoryWatermarkBytes := memoryWatermarkBytes }

/-! ### The check of a delta -/

/-- The counters of `is_valid_json_prefix`; the depths are `i32`. -/
structure JsonNesting where
  braceDepth : Int32 := 0
  bracketDepth : Int32 := 0
  inString : Bool := false
  escaped : Bool := false

/-- One character of the scan, `none` when the scan fails. -/
def JsonNesting.read (n : JsonNesting) (ch : Char) : Option JsonNesting :=
  if n.inString then
    if n.escaped then some { n with escaped := false }
    else if ch = '\\' then some { n with escaped := true }
    else if ch = '"' then some { n with inString := false }
    else some n
  else if ch = '"' then some { n with inString := true }
  else if ch = '{' then some { n with braceDepth := n.braceDepth + 1 }
  else if ch = '}' then
    let braceDepth := n.braceDepth - 1
    if braceDepth < 0 then none else some { n with braceDepth := braceDepth }
  else if ch = '[' then some { n with bracketDepth := n.bracketDepth + 1 }
  else if ch = ']' then
    let bracketDepth := n.bracketDepth - 1
    if bracketDepth < 0 then none else some { n with bracketDepth := bracketDepth }
  else some n

def JsonNesting.scan : JsonNesting → List Char → Option JsonNesting
  | n, [] => some n
  | n, ch :: s => (n.read ch).bind fun next => next.scan s

def isValidJsonPrefix (existing incoming : List Char) : Bool :=
  (JsonNesting.scan {} (existing ++ incoming)).isSome

/-! ### The entries -/

def entryMemory (entry : ToolCallId × ToolState) : ℕ :=
  byteLen entry.1.toList + byteLen entry.2.taskId.toList + byteLen entry.2.name.toList +
    byteLen entry.2.partialArgs + (entry.2.deltaQueue.map byteLen).sum + 128

def estimateMemoryUsage (map : ToolMap) : ℕ := (map.map entryMemory).sum

/-- `min_by_key`: the first of the entries that were active longest ago. -/
def minByLastActivity : ToolMap → Option (ToolCallId × ToolState)
  | [] => none
  | entry :: map =>
    match minByLastActivity map with
    | none => some entry
    | some other => if other.2.lastActivity < entry.2.lastActivity then some other else some entry

def oldestPending (order : HashOrder) (map : ToolMap) : Option ToolCallId :=
  (minByLastActivity ((order.walk map).filter fun entry => !entry.2.finished)).map Prod.fst

def dropOldestPending (order : HashOrder) (map : ToolMap) : ToolMap :=
  match oldestPending order map with
  | none => map
  | some oldestId => Assoc.erase oldestId map

/-- The delta goes to the queue, and as many of its characters as fit to the stored text. -/
def ToolState.accept (entry : ToolState) (id : ToolCallId) (now : ℕ) (partialJson : List Char) :
    ToolState × Option PeerDelta :=
  let queue :=
    if entry.deltaQueue.length = maxToolDeltaQueueDepth then entry.deltaQueue.tail
    else entry.deltaQueue
  let pushed := Capped.push Char.utf8Size maxStoredPartialBytes entry.partialArgs partialJson
  ({ entry with
      lastActivity := now
      deltaQueue := queue ++ [partialJson]
      partialArgs := pushed.1
      partialArgsTruncated := entry.partialArgsTruncated || pushed.2 },
    if pushed.2 && !entry.partialArgsTruncated then
      some (.partialArgsTruncated id entry.taskId maxStoredPartialBytes)
    else none)

/-! ### The operations -/

inductive Reply where
  | ok
  | err (error : AccumulationError)
  | removed (count : ℕ)
  /-- The subtraction of the age from the clock has panicked. -/
  | panicked

structure Effect where
  state : ToolMap
  published : List PeerDelta
  reply : Reply

namespace DeltaAccumulator

variable (acc : DeltaAccumulator) (now : ℕ) (order : HashOrder)

/-- The memory that the map would take up exceeds the watermark. -/
def overWatermark (map : ToolMap) : Bool := acc.memoryWatermarkBytes < estimateMemoryUsage map

def relieve (map : ToolMap) : ToolMap :=
  if acc.overWatermark map then dropOldestPending order map else map

def startTool (id : ToolCallId) (taskId name : String) : Effect :=
  if (Assoc.find? id acc.state).isSome then
    { state := acc.state, published := [], reply := .err (.duplicateId id) }
  else
    let map := acc.relieve order acc.state
    if acc.overWatermark acc.state && acc.overWatermark map then
      { state := map, published := [], reply := .err .memoryPressure }
    else
      { state := map ++ [(id,
          { id := id, taskId := taskId, name := name, partialArgs := [],
            partialArgsTruncated := false, finished := false, deltaQueue := [],
            lastActivity := now })]
        published := [.toolStart id taskId name]
        reply := .ok }

def accumulate (id : ToolCallId) (partialJson : List Char) : Effect :=
  match Assoc.find? id acc.state with
  | none => { state := acc.state, published := [], reply := .err (.unknownId id) }
  | some entry =>
    if isValidJsonPrefix entry.partialArgs partialJson then
      let accepted := entry.accept id now partialJson
      let updated := Assoc.insertLast id accepted.1 acc.state
      let map := acc.relieve order updated
      let taskId := ((Assoc.find? id map).map ToolState.taskId).getD ""
      { state := map
        published := .toolDelta id taskId partialJson :: accepted.2.toList
        reply := .ok }
    else { state := acc.state, published := [], reply := .err .malformedPartial }

def finish (id : ToolCallId) : Effect :=
  match Assoc.find? id acc.state with
  | none => { state := acc.state, published := [], reply := .ok }
  | some entry =>
    { state := Assoc.insertLast id { entry with finished := true, lastActivity := now } acc.state
      published := [.toolFinish id entry.taskId]
      reply := .ok }

/-- The entries that pass stay; the reply counts the others. -/
def retain (keep : ToolState → Bool) : Effect :=
  let map := acc.state.filter fun entry => keep entry.2
  { state := map, published := [], reply := .removed (acc.state.length - map.length) }

def cleanupFinished (olderThan : ℕ) : Effect :=
  if now < olderThan then { state := acc.state, published := [], reply := .panicked }
  else
    let cutoff := now - olderThan
    acc.retain fun state => !state.finished || cutoff < state.lastActivity

def cleanupTask (taskId : String) : Effect := acc.retain fun state => state.taskId ≠ taskId

end DeltaAccumulator

/-! ### Runs -/

inductive AccumulatorCall where
  | startTool (id : ToolCallId) (taskId name : String)
  | accumulate (id : ToolCallId) (partialJson : List Char)
  | finish (id : ToolCallId)
  | cleanupFinished (olderThan : ℕ)
  | cleanupTask (taskId : String)

/-- A call, with what the clock shows and how the hash map is walked when it is made. -/
structure Request where
  call : AccumulatorCall
  now : ℕ
  order : HashOrder

def DeltaAccumulator.perform (acc : DeltaAccumulator) (req : Request) : Effect :=
  match req.call with
  | .startTool id taskId name => acc.startTool req.now req.order id taskId name
  | .accumulate id partialJson => acc.accumulate req.now req.order id partialJson
  | .finish id => acc.finish req.now id
  | .cleanupFinished olderThan => acc.cleanupFinished req.now olderThan
  | .cleanupTask taskId => acc.cleanupTask taskId

structure Session where
  acc : DeltaAccumulator
  published : List PeerDelta

def Session.start (memoryWatermarkBytes : ℕ) : Session :=
  { acc := DeltaAccumulator.new memoryWatermarkBytes, published := [] }

def Session.step (session : Session) (req : Request) : Session :=
  let effect := session.acc.perform req
  { acc := { session.acc with state := effect.state }
    published := session.published ++ effect.published }

def Session.run (session : Session) (reqs : List Request) : Session := reqs.foldl Session.step session

end Vexcoder.Runtime

import Vexcoder.Base.Text
import Vexcoder.Lib.CursorLog

/-!
# The channel of peer messages

The session tasks of a parent task share a file of messages, one line of JSON each.  A sender stamps
its message before the append takes the lock of the channel; under the lock the append is one step,
and so is a read.  What writes and reads the JSON of a message stands here as a `PeerMessageCodec`.
-/

namespace Vexcoder.Task

open Base

inductive PeerMessageKind where
  | statusNote
  | correction
  | question
  | acknowledgement
  deriving DecidableEq

structure PeerMessage where
  id : String
  sentAt : ℕ
  senderId : String
  senderAgentId : String
  recipient : String
  kind : PeerMessageKind
  content : String
  parentTaskId : String
  deriving DecidableEq

/-- `serde_json` at `PeerMessage`. -/
structure PeerMessageCodec where
  toString : PeerMessage → String
  fromStr : String → Option PeerMessage

inductive AppendMessageError where
  | channelFull

def maxChannelDepth : ℕ := 256

def maxChannelReadBatch : ℕ := 64

def maxChannelFileBytes : ℕ := 1048576

def maxLineBytes : ℕ := 8192

/-- The bytes of a line of the file with its line feed. -/
def lineBytes (line : String) : ℕ := byteLen line.toList + 1

def countLines (lines : List String) : ℕ :=
  (lines.filter fun line => !Text.isEmpty (Text.trim line)).length

/-- `append_message_inner`; a file that does not exist has no lines. -/
def appendMessage (codec : PeerMessageCodec) (lines : List String) (message : PeerMessage) :
    Except AppendMessageError (List String) :=
  if maxChannelDepth ≤ countLines lines then .error .channelFull
  else if maxChannelFileBytes ≤ (lines.map lineBytes).sum then .error .channelFull
  else .ok (lines ++ [codec.toString message])

/-- A message is for the reader when it asks for no recipient, or for its own. -/
def addressedTo (recipientFilter : Option String) (message : PeerMessage) : Bool :=
  match recipientFilter with
  | some agentId => message.recipient == "*" || message.recipient == agentId
  | none => true

/-- The loop of `read_messages`. -/
def readLines (codec : PeerMessageCodec) (afterMs : ℕ) (recipientFilter : Option String)
    (results : List PeerMessage) : List String → List PeerMessage
  | [] => results
  | line :: rest =>
    if maxLineBytes < lineBytes line || Text.isEmpty (Text.trim line) then
      readLines codec afterMs recipientFilter results rest
    else
      match codec.fromStr (Text.trim line) with
      | none => readLines codec afterMs recipientFilter results rest
      | some message =>
        if message.sentAt ≤ afterMs then readLines codec afterMs recipientFilter results rest
        else if !addressedTo recipientFilter message then
          readLines codec afterMs recipientFilter results rest
        else
          let results := results ++ [message]
          if maxChannelReadBatch ≤ results.length then results
          else readLines codec afterMs recipientFilter results rest

def readMessages (codec : PeerMessageCodec) (lines : List String) (afterMs : ℕ)
    (recipientFilter : Option String) : List PeerMessage :=
  readLines codec afterMs recipientFilter [] lines

/-! ### Senders and a reader -/

/-- The channel with the senders that have stamped a message and wait for the lock, and one reader. -/
structure ChannelState where
  lines : List String := []
  now : ℕ := 0
  waiting : List PeerMessage := []
  /-- The messages whose append has succeeded. -/
  appended : List PeerMessage := []
  received : List PeerMessage := []

inductive ChannelEvent where
  /-- The clock shows another time. -/
  | clock (now : ℕ)
  /-- `PeerMessage::new` -/
  | stamp (message : PeerMessage)
  /-- A waiting sender gets the lock. -/
  | append (index : ℕ)
  | poll

namespace ChannelState

/-- The largest `sent_at` that the reader has received. -/
def afterMs (s : ChannelState) : ℕ := s.received.foldr (fun message n => max message.sentAt n) 0

/-- What the reader's next poll gives. -/
def batch (codec : PeerMessageCodec) (recipientFilter : Option String) (s : ChannelState) :
    List PeerMessage :=
  readMessages codec s.lines s.afterMs recipientFilter

def step (codec : PeerMessageCodec) (recipientFilter : Option String) (s : ChannelState) :
    ChannelEvent → ChannelState
  | .clock now => { s with now }
  | .stamp message => { s with waiting := s.waiting ++ [{ message with sentAt := s.now }] }
  | .append index =>
    match s.waiting[index]? with
    | none => s
    | some message =>
      match appendMessage codec s.lines message with
      | .error _ => { s with waiting := s.waiting.eraseIdx index }
      | .ok lines =>
        { s with
          lines, waiting := s.waiting.eraseIdx index, appended := s.appended ++ [message] }
  | .poll => { s with received := s.received ++ s.batch codec recipientFilter }

def run (codec : PeerMessageCodec) (recipientFilter : Option String) (s : ChannelState)
    (events : List ChannelEvent) : ChannelState :=
  events.foldl (step codec recipientFilter) s

end ChannelState

end Vexcoder.Task

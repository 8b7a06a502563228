import Vexcoder.App.Update
import Vexcoder.Conversation.Manager
import Vexcoder.Stream.Chunking

/-!
# Forwarding a turn to the terminal interface

The updates of a conversation go to the interface through a text normaliser for each open text block
and one for the text outside blocks.  At the end of the turn `start_pulse` finishes the normalisers of
the blocks that are still open.
-/

namespace Vexcoder.App

open Base Lib Vexcoder.Runtime Vexcoder.Stream Conversation

/-! ### The driver -/

/-- `textual_block_by_index` and `normaliser` of the driver. -/
structure Forwarder where
  textualBlockByIndex : List (ℕ × StreamTextNormaliser) := []
  normaliser : StreamTextNormaliser := {}

def emitNormalisedChunks (chunks : List NormalisedChunk) (blockIndex : Option ℕ) : List UiUpdate :=
  chunks.filterMap fun chunk =>
    match chunk, blockIndex with
    | .text text, some index => some (.streamBlockDelta index (String.ofList text))
    | .text text, none => some (.streamDelta (String.ofList text))
    | .taggedToolCall .., _ => none

def Forwarder.setBlock (f : Forwarder) (index : ℕ) (normaliser : StreamTextNormaliser) : Forwarder :=
  { f with textualBlockByIndex := Assoc.insertLast index normaliser f.textualBlockByIndex }

variable (codec : JsonCodec)

/-- `emit_normalised_text`; the `none` behind the updates is the panic of the normaliser. -/
def Forwarder.emitNormalisedText (f : Forwarder) (text : String) : List UiUpdate × Option Forwarder :=
  match f.normaliser.normalise codec text.toList with
  | none => ([], none)
  | some (chunks, normaliser) =>
    (emitNormalisedChunks chunks none, some { f with normaliser := normaliser })

/-- `emit_normalised_block_text` on the normaliser of the block. -/
def Forwarder.emitNormalisedBlockText (f : Forwarder) (normaliser : StreamTextNormaliser) (index : ℕ)
    (text : String) : List UiUpdate × Option Forwarder :=
  match normaliser.normalise codec text.toList with
  | none => ([], none)
  | some (chunks, normaliser') =>
    (emitNormalisedChunks chunks (some index), some (f.setBlock index normaliser'))

/-- The start of a text block: a new normaliser takes the place of an old one. -/
def Forwarder.textBlockStart (f : Forwarder) (index : ℕ) (block : StreamBlock) (content : String) :
    List UiUpdate × Option Forwarder :=
  if content.toList.isEmpty then ([.streamBlockStart index block], some (f.setBlock index {}))
  else
    let (texts, f') := (f.setBlock index {}).emitNormalisedBlockText codec {} index content
    (.streamBlockStart index block :: texts, f')

def Forwarder.blockDelta (f : Forwarder) (index : ℕ) (delta : String) : List UiUpdate × Option Forwarder :=
  match Assoc.find? index f.textualBlockByIndex with
  | none => ([.streamBlockDelta index delta], some f)
  | some normaliser => f.emitNormalisedBlockText codec normaliser index delta

def Forwarder.blockComplete (f : Forwarder) (index : ℕ) : List UiUpdate × Option Forwarder :=
  match Assoc.find? index f.textualBlockByIndex with
  | none => ([.streamBlockComplete index], some f)
  | some normaliser =>
    (emitNormalisedChunks normaliser.finish (some index) ++ [.streamBlockComplete index],
      some { f with textualBlockByIndex := Assoc.erase index f.textualBlockByIndex })

def forwardConversationUpdate (f : Forwarder) : ConversationStreamUpdate → List UiUpdate × Option Forwarder
  | .delta text => f.emitNormalisedText codec text
  | .blockStart index (.thinking content collapsed) =>
    f.textBlockStart codec index (.thinking "" collapsed) content
  | .blockStart index (.finalText content) => f.textBlockStart codec index (.finalText "") content
  | .blockStart index block => ([.streamBlockStart index block], some f)
  | .blockDelta index delta => f.blockDelta codec index delta
  | .blockComplete index => f.blockComplete index
  | .toolCallArgumentsUpdated toolCallId toolName arguments =>
    ([.toolCallArgumentsUpdated toolCallId toolName arguments], some f)
  | .toolApprovalRequest request => ([.toolApprovalRequest request], some f)
  | .transcriptLine line => ([.transcriptLine line], some f)
  | .serverMetadata metadata => ([.serverMetadata metadata], some f)
  | .commandSessionStarted sessionId command => ([.commandSessionStarted sessionId command], some f)
  | .commandSessionAttached sessionId pid => ([.commandSessionAttached sessionId pid], some f)
  | .commandSessionFinished sessionId => ([.commandSessionFinished sessionId], some f)
  | .contextCompacted messagesBefore messagesAfter summary =>
    ([.contextCompacted messagesBefore messagesAfter summary], some f)
  | .streamError message => ([.error message], some f)

/-- The loop of a driver; a panic of the normaliser ends it. -/
def forwardAll (f : Forwarder) : List ConversationStreamUpdate → List UiUpdate × Option Forwarder
  | [] => ([], some f)
  | update :: updates =>
    match forwardConversationUpdate codec f update with
    | (out, none) => (out, none)
    | (out, some f') => (out ++ (forwardAll f' updates).1, (forwardAll f' updates).2)

/-- The order in which a hash map gives its entries is any. -/
structure DrainOrder where
  drain : List (ℕ × StreamTextNormaliser) → List (ℕ × StreamTextNormaliser)
  perm : ∀ blocks, (drain blocks).Perm blocks

/-- What the task of `send_message` comes to. -/
inductive SendResult where
  | answered
  | failed (message : String)
  | aborted
  | panicked (message : String)

/-- How a pulse ends: it is cancelled, or its updates come to an end. -/
inductive PulseEnding where
  | cancelled
  | ended (result : SendResult)

def PulseEnding.update : PulseEnding → UiUpdate
  | .cancelled | .ended .answered | .ended .aborted => .pulseComplete
  | .ended (.failed message) | .ended (.panicked message) => .error message

/-- The normalisers that are still there are finished and their blocks closed. -/
def finishBlocks (blocks : List (ℕ × StreamTextNormaliser)) : List UiUpdate :=
  blocks.flatMap fun (index, normaliser) =>
    emitNormalisedChunks normaliser.finish (some index) ++ [.streamBlockComplete index]

/-- The updates that the task of `start_pulse` sends for the updates it has received. -/
def startPulse (order : DrainOrder) (updates : List ConversationStreamUpdate)
    (ending : PulseEnding) : List UiUpdate :=
  match forwardAll codec {} updates with
  | (out, none) => out
  | (out, some f) =>
    match ending with
    | .cancelled => out ++ [ending.update]
    | .ended _ => out ++ finishBlocks (order.drain f.textualBlockByIndex) ++ [ending.update]

end Vexcoder.App

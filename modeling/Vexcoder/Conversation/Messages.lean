import Vexcoder.Base.Json
import Vexcoder.Base.Text

/-!
# Messages of the model API

The messages a conversation sends to the provider, and what the history functions ask of one.
-/

namespace Vexcoder.Conversation

open Base

/-- The kinds of `ContentBlock` that the conversation builds. -/
inductive ContentBlock where
  | text (text : String)
  | toolUse (id name : String) (input : Value)
  | toolResult (toolUseId content : String) (isError : Bool)
  deriving DecidableEq

inductive Content where
  | text (text : String)
  | blocks (blocks : List ContentBlock)
  deriving DecidableEq

structure ApiMessage where
  role : String
  content : Content
  cacheHint : Option String := none
  deriving DecidableEq

namespace ContentBlock

def toolUseId? : ContentBlock → Option String
  | .toolUse id .. => some id
  | _ => none

def toolResultId? : ContentBlock → Option String
  | .toolResult toolUseId .. => some toolUseId
  | _ => none

def isToolResult : ContentBlock → Bool
  | .toolResult .. => true
  | _ => false

theorem isToolResult_eq (block : ContentBlock) : block.isToolResult = block.toolResultId?.isSome := by
  cases block <;> rfl

end ContentBlock

namespace ApiMessage

def blocks (message : ApiMessage) : List ContentBlock :=
  match message.content with
  | .text _ => []
  | .blocks blocks => blocks

def toolUseIds (message : ApiMessage) : List String :=
  message.blocks.filterMap ContentBlock.toolUseId?

def toolResultIds (message : ApiMessage) : List String :=
  message.blocks.filterMap ContentBlock.toolResultId?

end ApiMessage

def userText (text : String) : ApiMessage := { role := "user", content := .text text }

def assistantText (text : String) : ApiMessage := { role := "assistant", content := .text text }

def textProtocolToolResultMessage (text : String) : Bool :=
  (Text.lines text).any fun line =>
    let trimmed := Text.trimStart line
    Text.startsWith trimmed "tool_result " || Text.startsWith trimmed "tool_error "

def messageContainsToolResult (message : ApiMessage) : Bool :=
  match message.content with
  | .blocks blocks => blocks.any ContentBlock.isToolResult
  | .text text => textProtocolToolResultMessage text

/-- A message the user wrote: the history is cut only in front of these, where there is one. -/
def isUserRequest (message : ApiMessage) : Bool :=
  message.role = "user" && !messageContainsToolResult message

theorem toolResultIds_of_isUserRequest {message : ApiMessage} (h : isUserRequest message) :
    message.toolResultIds = [] := by
  have hnone := (Bool.and_eq_true _ _ ▸ h).2
  obtain ⟨role, content, cacheHint⟩ := message
  cases content with
  | text text => rfl
  | blocks blocks =>
    simp only [messageContainsToolResult, Bool.not_eq_eq_eq_not, Bool.not_true, List.any_eq_false] at hnone
    refine List.filterMap_eq_nil_iff.mpr fun block hmem => ?_
    have := hnone block hmem
    rw [ContentBlock.isToolResult_eq] at this
    exact Option.not_isSome_iff_eq_none.mp this

end Vexcoder.Conversation

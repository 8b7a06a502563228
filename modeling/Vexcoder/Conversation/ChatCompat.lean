import Vexcoder.Base.Json
import Vexcoder.Base.Text
import Mathlib.Data.List.Forall2

/-!
# Messages for a chat-compatible endpoint

`chat_compat_messages` renders the messages of a conversation as wire messages.  The calls of an
assistant message stay with it, and every tool result becomes a message of its own.

Where the results of a conversation do nothing but answer its calls, every call is answered right behind
its message, and no other tool message is sent (`chatCompat_keeps`).
-/

namespace Vexcoder.Conversation.ChatCompat

open Base Base.Value

inductive ContentBlock where
  | text (text : String)
  | toolUse (id name : String) (input : Value)
  | toolResult (toolUseId content : String)
  | thinking (thinking signature : String)
  | thinkingData (data : String)
  | serverToolUse (id name : String) (input : Value)
  | webSearchToolResult (toolUseId : String) (content : Value)

inductive Content where
  | text (text : String)
  | blocks (blocks : List ContentBlock)

structure ApiMessage where
  role : String
  content : Content

/-! ### Rendering -/

def toolInputToJsonString (codec : JsonCodec) : Value → String
  | .string text => text
  | value => String.ofList (codec.toString value)

def textMessage (role text : String) : Value :=
  .object [("content", .string text), ("role", .string role)]

def toolMessage (toolUseId content : String) : Value :=
  .object [("content", .string content), ("role", .string "tool"), ("tool_call_id", .string toolUseId)]

def toolCall (codec : JsonCodec) (id name : String) (input : Value) : Value :=
  .object
    [("function",
        .object
          [("arguments", .string (toolInputToJsonString codec input)), ("name", .string name)]),
      ("id", .string id), ("type", .string "function")]

def assistantMessage (content : String) (toolCalls : List Value) : Value :=
  let message := insertMember "role" (.string "assistant") []
  let message :=
    insertMember "content" (if Text.isEmpty content then .null else .string content) message
  .object
    (if toolCalls.isEmpty then message else insertMember "tool_calls" (.array toolCalls) message)

def collectBlock (codec : JsonCodec) (collected : String × List Value) : ContentBlock → String × List Value
  | .text text => (collected.1 ++ text, collected.2)
  | .toolUse id name input => (collected.1, collected.2 ++ [toolCall codec id name input])
  | _ => collected

/-- A block of a message of another role; the flag is that a message was pushed. -/
def pushBlock (role : String) (out : List Value × Bool) : ContentBlock → List Value × Bool
  | .toolResult toolUseId content => (out.1 ++ [toolMessage toolUseId content], true)
  | .text text => (out.1 ++ [textMessage role text], true)
  | _ => out

def appendChatCompatMessage (codec : JsonCodec) (out : List Value) (message : ApiMessage) :
    List Value :=
  match message.content with
  | .text text => out ++ [textMessage message.role text]
  | .blocks blocks =>
    if message.role = "assistant" then
      let collected := blocks.foldl (collectBlock codec) ("", [])
      out ++ [assistantMessage collected.1 collected.2]
    else
      let pushed := blocks.foldl (pushBlock message.role) (out, false)
      if pushed.2 then pushed.1 else pushed.1 ++ [textMessage message.role ""]

def chatCompatMessages (codec : JsonCodec) (messages : List ApiMessage) (systemPrompt : String) :
    List Value :=
  messages.foldl (appendChatCompatMessage codec) [textMessage "system" systemPrompt]

/-! ### What a conversation holds -/

structure Use where
  id : String
  name : String
  input : Value

def ContentBlock.use? : ContentBlock → Option Use
  | .toolUse id name input => some ⟨id, name, input⟩
  | _ => none

def ContentBlock.text? : ContentBlock → Option String
  | .text content => some content
  | _ => none

/-- The call that a block answers, and the answer. -/
def ContentBlock.result? : ContentBlock → Option (String × String)
  | .toolResult toolUseId content => some (toolUseId, content)
  | _ => none

namespace ApiMessage

variable (message : ApiMessage)

def uses : List Use :=
  match message.content with
  | .text _ => []
  | .blocks blocks => if message.role = "assistant" then blocks.filterMap ContentBlock.use? else []

def results : List (String × String) :=
  match message.content with
  | .text _ => []
  | .blocks blocks =>
    if message.role = "assistant" then [] else blocks.filterMap ContentBlock.result?

/-- The texts of a message; those of an assistant message are one text. -/
def texts : List String :=
  match message.content with
  | .text text => [text]
  | .blocks blocks =>
    if message.role = "assistant" then [Text.join "" (blocks.filterMap ContentBlock.text?)]
    else blocks.filterMap ContentBlock.text?

end ApiMessage

/-- Each message with calls is followed by a user message that begins with their results in order, and
the inputs of calls are objects. -/
def Paired : List ApiMessage → Prop
  | [] => True
  | message :: rest =>
    (message.uses ≠ [] →
      (∀ use ∈ message.uses, ∃ members, use.input = .object members) ∧
        ∃ (answers : List (String × String)) (blocks : List ContentBlock)
          (behind : List ApiMessage), rest =
          ⟨"user", .blocks (answers.map (fun answer => .toolResult answer.1 answer.2) ++ blocks)⟩ ::
            behind ∧
          answers.map Prod.fst = message.uses.map Use.id) ∧ Paired rest

/-- The results of a message answer the calls of the message in front of it, and no message has the role
of a tool. -/
def OnlyAnswers : List Use → List ApiMessage → Prop
  | _, [] => True
  | calls, message :: rest =>
    message.role ≠ "tool" ∧ message.results.map Prod.fst = calls.map Use.id ∧
      OnlyAnswers message.uses rest

/-! ### What a wire message says -/

def roleOf (message : Value) : Option String := (message.get? "role").bind asStr

def callsOf (message : Value) : List Value :=
  match message.get? "tool_calls" with
  | some (.array calls) => calls
  | _ => []

def callId (call : Value) : Option String := (call.get? "id").bind asStr

def argumentsOf (call : Value) : Option String :=
  (call.get? "function").bind fun function => (function.get? "arguments").bind asStr

def answersCall (message : Value) : Option String := (message.get? "tool_call_id").bind asStr

def textOf (message : Value) : String := ((message.get? "content").bind asStr).getD ""

def IsTool (message : Value) : Prop := roleOf message = some "tool"

instance (message : Value) : Decidable (IsTool message) := inferInstanceAs (Decidable (_ = _))

structure Keeps (codec : JsonCodec) (systemPrompt : String) (messages : List ApiMessage)
    (wire : List Value) : Prop where
  /-- Right behind a message with calls stand their answers, and no further tool message. -/
  answered : ∀ front message behind, wire = front ++ message :: behind → callsOf message ≠ [] →
    ∃ answers rest, behind = answers ++ rest ∧ (∀ answer ∈ answers, IsTool answer) ∧
      answers.map answersCall = (callsOf message).map callId ∧ ∀ next ∈ rest.head?, ¬ IsTool next
  /-- There are no other tool messages. -/
  noOther : (wire.filter fun message => IsTool message).map answersCall = (wire.flatMap callsOf).map callId
  /-- The calls of the conversation, with inputs that are read back. -/
  calls : List.Forall₂ (fun call (use : Use) => callId call = some use.id ∧
    ∃ text, argumentsOf call = some text ∧ codec.fromStr text.toList = some use.input)
      (wire.flatMap callsOf) (messages.flatMap ApiMessage.uses)
  /-- The results of the conversation. -/
  results : (wire.filter fun message => IsTool message).map
      (fun message => (answersCall message, textOf message)) =
    (messages.flatMap ApiMessage.results).map fun result => (some result.1, result.2)
  /-- The texts of the conversation; a text that is empty may go or come. -/
  texts : ((wire.filter fun message => ¬ IsTool message).map textOf).filter (· ≠ "") =
    (systemPrompt :: messages.flatMap ApiMessage.texts).filter (· ≠ "")

/-! ### One message -/

variable {codec : JsonCodec} {message : ApiMessage}

def renderBlock (role : String) : ContentBlock → Option Value
  | .toolResult toolUseId content => some (toolMessage toolUseId content)
  | .text text => some (textMessage role text)
  | _ => none

def useCall (codec : JsonCodec) (use : Use) : Value := toolCall codec use.id use.name use.input

def rendered (codec : JsonCodec) (message : ApiMessage) : List Value :=
  match message.content with
  | .text text => [textMessage message.role text]
  | .blocks blocks =>
    if message.role = "assistant" then
      [assistantMessage (Text.join "" (blocks.filterMap ContentBlock.text?))
        ((blocks.filterMap ContentBlock.use?).map (useCall codec))]
    else
      match blocks.filterMap (renderBlock message.role) with
      | [] => [textMessage message.role ""]
      | first :: rest => first :: rest

theorem collect_blocks (blocks : List ContentBlock) (content : String) (calls : List Value) :
    blocks.foldl (collectBlock codec) (content, calls) =
      (content ++ Text.join "" (blocks.filterMap ContentBlock.text?),
        calls ++ (blocks.filterMap ContentBlock.use?).map (useCall codec)) := by
  induction blocks generalizing content calls with
  | nil =>
    show (content, calls) = (content ++ "", calls ++ [])
    rw [String.append_empty, List.append_nil]
  | cons block blocks ih =>
    rw [List.foldl_cons]
    cases block with
    | text text =>
      rw [ih]
      have hjoin := Text.join_empty_append [text] (blocks.filterMap ContentBlock.text?)
      show (content ++ text ++ _, _) = (content ++ Text.join "" ([text] ++ _), _)
      rw [hjoin, String.append_assoc]
      rfl
    | toolUse id name input =>
      rw [collectBlock, ih]
      show (_, calls ++ [_] ++ _) = (_, calls ++ ([_] ++ _))
      rw [List.append_assoc]
      rfl
    | _ => exact ih content calls

variable (role content : String) (calls : List Value) (id text : String)

theorem push_blocks (blocks : List ContentBlock) (out : List Value) (pushed : Bool) :
    blocks.foldl (pushBlock role) (out, pushed) =
      (out ++ blocks.filterMap (renderBlock role),
        pushed || !(blocks.filterMap (renderBlock role)).isEmpty) := by
  induction blocks generalizing out pushed with
  | nil => simp
  | cons block blocks ih =>
    rw [List.foldl_cons]
    cases block with
    | text text =>
      rw [pushBlock, ih]
      simp [renderBlock]
    | toolResult toolUseId content =>
      rw [pushBlock, ih]
      simp [renderBlock]
    | _ => exact ih out pushed

theorem append_eq_rendered (out : List Value) :
    appendChatCompatMessage codec out message = out ++ rendered codec message := by
  rw [appendChatCompatMessage, rendered]
  split
  · rfl
  split
  · rw [collect_blocks]
    simp
  · rw [push_blocks]
    cases List.filterMap (renderBlock message.role) _ with
    | nil | cons first rest => simp

theorem chatCompatMessages_eq (messages : List ApiMessage) (systemPrompt : String) :
    chatCompatMessages codec messages systemPrompt =
      textMessage "system" systemPrompt :: messages.flatMap (rendered codec) := by
  have hfold : ∀ out : List Value, messages.foldl (appendChatCompatMessage codec) out =
      out ++ messages.flatMap (rendered codec) := by
    induction messages with
    | nil => exact fun out => (List.append_nil out).symm
    | cons message messages ih =>
      intro out
      rw [List.foldl_cons, ih, append_eq_rendered, List.flatMap_cons, List.append_assoc]
  exact hfold _

/-! ### What its wire messages say -/

theorem assistantMessage_eq :
    assistantMessage content calls =
      .object (("content", if Text.isEmpty content then .null else .string content) ::
        ("role", .string "assistant") ::
          if calls.isEmpty then [] else [("tool_calls", .array calls)]) := by
  cases calls with
  | nil | cons call calls => rfl

@[simp] theorem callsOf_textMessage : callsOf (textMessage role text) = [] := rfl

variable (content : String)

@[simp] theorem callsOf_toolMessage :
    callsOf (toolMessage id content) = [] := rfl

@[simp] theorem callsOf_assistantMessage : callsOf (assistantMessage content calls) = calls := by
  cases calls <;> rfl

@[simp] theorem isTool_textMessage : IsTool (textMessage role text) ↔ role = "tool" := by
  show some role = some "tool" ↔ _
  rw [Option.some.injEq]

@[simp] theorem isTool_toolMessage : IsTool (toolMessage id content) := rfl

@[simp] theorem not_isTool_assistantMessage : ¬ IsTool (assistantMessage content calls) := by
  rw [assistantMessage_eq]
  show ¬ some "assistant" = some "tool"
  decide

@[simp] theorem answersCall_toolMessage :
    answersCall (toolMessage id content) = some id := rfl

@[simp] theorem textOf_textMessage : textOf (textMessage role text) = text := rfl

@[simp] theorem textOf_toolMessage :
    textOf (toolMessage id content) = content := rfl

@[simp] theorem textOf_assistantMessage : textOf (assistantMessage content calls) = content := by
  rw [assistantMessage_eq]
  cases hempty : Text.isEmpty content with
  | true => exact (Text.isEmpty_iff.mp hempty).symm
  | false => rfl

theorem callsOf_renderBlock {role : String} {block : ContentBlock} {wire : Value}
    (h : renderBlock role block = some wire) : callsOf wire = [] := by
  cases block <;> cases h <;> rfl

variable (codec) in
theorem calls_rendered (message : ApiMessage) :
    (rendered codec message).flatMap callsOf = message.uses.map (useCall codec) := by
  rw [rendered, ApiMessage.uses]
  split
  · rfl
  split
  · rw [List.flatMap_singleton, callsOf_assistantMessage]
  split
  · rfl
  rename_i first rest hrendered
  refine List.flatMap_eq_nil_iff.mpr ?_
  intro wire hwire
  rw [← hrendered] at hwire
  obtain ⟨block, -, hblock⟩ := List.mem_filterMap.mp hwire
  exact callsOf_renderBlock hblock

section Blocks

variable {role : String} (hrole : role ≠ "tool") (blocks : List ContentBlock)

include hrole

theorem results_blocks :
    ((blocks.filterMap (renderBlock role)).filter fun wire => IsTool wire).map
        (fun wire => (answersCall wire, textOf wire)) =
      (blocks.filterMap ContentBlock.result?).map fun result => (some result.1, result.2) := by
  induction blocks with
  | nil => rfl
  | cons block blocks ih =>
    cases block with
    | text text => simpa [List.filterMap_cons, renderBlock, ContentBlock.result?, hrole] using ih
    | toolResult id content => simpa [List.filterMap_cons, renderBlock, ContentBlock.result?] using ih
    | _ => exact ih

theorem texts_blocks :
    ((blocks.filterMap (renderBlock role)).filter fun wire => ¬ IsTool wire).map textOf =
      blocks.filterMap ContentBlock.text? := by
  induction blocks with
  | nil => rfl
  | cons block blocks ih =>
    cases block with
    | text text => simpa [List.filterMap_cons, renderBlock, ContentBlock.text?, hrole] using ih
    | toolResult id content => simpa [List.filterMap_cons, renderBlock, ContentBlock.text?] using ih
    | _ => exact ih

end Blocks

variable (codec) in
theorem results_rendered (h : message.role ≠ "tool") :
    ((rendered codec message).filter fun wire => IsTool wire).map
        (fun wire => (answersCall wire, textOf wire)) =
      message.results.map fun result => (some result.1, result.2) := by
  rw [rendered, ApiMessage.results]
  split
  · simp [h]
  split
  · simp
  rename_i blocks _ _
  rw [← results_blocks h blocks]
  split
  · rename_i hnil
    simp [h, hnil]
  · rename_i first rest hrendered
    rw [hrendered]

theorem texts_rendered (h : message.role ≠ "tool") :
    (((rendered codec message).filter fun wire => ¬ IsTool wire).map textOf).filter (· ≠ "") =
      message.texts.filter (· ≠ "") := by
  rw [rendered, ApiMessage.texts]
  split
  · simp [h]
  split
  · simp
  rename_i blocks _ _
  rw [← texts_blocks h blocks]
  split
  · rename_i hnil
    simp [h, hnil]
  · rename_i first rest hrendered
    rw [hrendered]

theorem rendered_ne_nil (message : ApiMessage) : rendered codec message ≠ [] := by
  rw [rendered]
  split
  · exact List.cons_ne_nil _ _
  · split
    · exact List.cons_ne_nil _ _
    · split <;> exact List.cons_ne_nil _ _

theorem not_isTool_of_results_nil (h : message.role ≠ "tool") (hresults : message.results = []) :
    ∀ wire ∈ rendered codec message, ¬ IsTool wire := by
  have hnone := results_rendered codec h
  rw [hresults, List.map_nil, List.map_eq_nil_iff] at hnone
  simpa using hnone

/-! ### Answers behind their calls -/

/-- Right behind every message with calls stand their answers, and no further tool message. -/
def Answered : List Value → Prop
  | [] => True
  | message :: rest =>
    (callsOf message ≠ [] → ∃ answers behind, rest = answers ++ behind ∧
      (∀ answer ∈ answers, IsTool answer) ∧
      answers.map answersCall = (callsOf message).map callId ∧
      ∀ next ∈ behind.head?, ¬ IsTool next) ∧ Answered rest

theorem Answered.at {wire front behind : List Value} {message : Value} (h : Answered wire)
    (heq : wire = front ++ message :: behind) (hcalls : callsOf message ≠ []) :
    ∃ answers rest, behind = answers ++ rest ∧ (∀ answer ∈ answers, IsTool answer) ∧
      answers.map answersCall = (callsOf message).map callId ∧
      ∀ next ∈ rest.head?, ¬ IsTool next := by
  induction front generalizing wire with
  | nil =>
    rw [heq] at h
    exact h.1 hcalls
  | cons first front ih =>
    rw [heq] at h
    exact ih h.2 rfl

theorem Answered.append {quiet rest : List Value} (hquiet : ∀ message ∈ quiet, callsOf message = [])
    (h : Answered rest) : Answered (quiet ++ rest) := by
  induction quiet with
  | nil => exact h
  | cons message quiet ih =>
    rw [List.forall_mem_cons] at hquiet
    exact ⟨fun hcalls => absurd hquiet.1 hcalls, ih hquiet.2⟩

variable {messages : List ApiMessage} {calls : List Use}

/-- No tool message comes first where no call is open. -/
theorem head_not_isTool (h : OnlyAnswers [] messages) :
    ∀ next ∈ (messages.flatMap (rendered codec)).head?, ¬ IsTool next := by
  cases messages with
  | nil => nofun
  | cons message messages =>
    obtain ⟨hrole, hresults, -⟩ := h
    rw [List.map_nil, List.map_eq_nil_iff] at hresults
    intro next hnext
    rw [List.flatMap_cons, List.head?_append_of_ne_nil _ (rendered_ne_nil message)] at hnext
    exact not_isTool_of_results_nil hrole hresults next (List.mem_of_mem_head? hnext)

/-- A user message that begins with the results of open calls. -/
theorem rendered_answers {answers : List (String × String)} (hanswers : answers ≠ [])
    (blocks : List ContentBlock) :
    rendered codec ⟨"user", .blocks
      (answers.map (fun answer => .toolResult answer.1 answer.2) ++ blocks)⟩ =
      answers.map (fun answer => toolMessage answer.1 answer.2) ++
        blocks.filterMap (renderBlock "user") := by
  have hrender : (answers.map (fun answer => ContentBlock.toolResult answer.1 answer.2) ++
      blocks).filterMap (renderBlock "user") =
      answers.map (fun answer => toolMessage answer.1 answer.2) ++
        blocks.filterMap (renderBlock "user") := by
    rw [List.filterMap_append, List.filterMap_map]
    exact congrArg (· ++ _) (congrFun List.filterMap_eq_map' answers)
  show (match List.filterMap (renderBlock "user") _ with
    | [] => [textMessage "user" ""]
    | first :: rest => first :: rest) = _
  rw [hrender]
  cases answers with
  | nil => exact absurd rfl hanswers
  | cons answer answers => rfl

theorem results_answers (answers : List (String × String)) (blocks : List ContentBlock) :
    (ApiMessage.mk "user" (.blocks
      (answers.map (fun answer => .toolResult answer.1 answer.2) ++ blocks))).results =
      answers ++ blocks.filterMap ContentBlock.result? := by
  show List.filterMap ContentBlock.result? _ = _
  rw [List.filterMap_append, List.filterMap_map]
  refine congrArg (· ++ _) ?_
  exact (congrFun List.filterMap_eq_map' answers).trans (List.map_id answers)

variable (codec) in
theorem rendered_of_uses (h : message.uses ≠ []) :
    ∃ content, rendered codec message = [assistantMessage content (message.uses.map (useCall codec))] := by
  rw [ApiMessage.uses] at h ⊢
  rw [rendered]
  split at h
  · exact absurd rfl h
  rename_i blocks hcontent
  split at h
  · rename_i hrole
    rw [if_pos hrole, if_pos hrole]
    exact ⟨_, rfl⟩
  · exact absurd rfl h

theorem answered_messages (hpaired : Paired messages) (honly : OnlyAnswers calls messages) :
    Answered (messages.flatMap (rendered codec)) := by
  induction messages generalizing calls with
  | nil => trivial
  | cons message rest ih =>
    obtain ⟨hrole, hresults, honly⟩ := honly
    have hrest := ih hpaired.2 honly
    have hcalls := calls_rendered codec message
    rw [List.flatMap_cons]
    by_cases huses : message.uses = []
    · rw [huses, List.map_nil, List.flatMap_eq_nil_iff] at hcalls
      exact hrest.append hcalls
    obtain ⟨-, answers, blocks, behind, hbehind, hids⟩ := hpaired.1 huses
    have hanswers : answers ≠ [] := by
      intro hnil
      rw [hnil] at hids
      exact huses (List.map_eq_nil_iff.mp hids.symm)
    obtain ⟨content, hrendered⟩ := rendered_of_uses codec huses
    rw [hrendered]
    refine ⟨?_, hrest⟩
    intro _
    rw [hbehind] at honly
    obtain ⟨huser, hresults', honly'⟩ := honly
    rw [results_answers, List.map_append, hids] at hresults'
    -- No result is left among the other blocks.
    have hblocks : blocks.filterMap ContentBlock.result? = [] :=
      List.map_eq_nil_iff.mp (List.append_cancel_left (hresults'.trans (List.append_nil _).symm))
    have hrole : ("user" : String) ≠ "tool" := by decide
    have hquiet := results_blocks hrole blocks
    rw [hblocks, List.map_nil, List.map_eq_nil_iff, List.filter_eq_nil_iff] at hquiet
    refine ⟨answers.map fun answer => toolMessage answer.1 answer.2,
      blocks.filterMap (renderBlock "user") ++ behind.flatMap (rendered codec), ?_, ?_, ?_, ?_⟩
    · rw [hbehind, List.flatMap_cons, rendered_answers hanswers, List.append_assoc]
      rfl
    · intro answer hanswer
      obtain ⟨pair, -, rfl⟩ := List.mem_map.mp hanswer
      exact isTool_toolMessage pair.1 pair.2
    · rw [callsOf_assistantMessage, List.map_map, List.map_map]
      have hsome := congrArg (List.map some) hids
      rw [List.map_map, List.map_map] at hsome
      exact hsome
    · intro next hnext
      cases hfirst : blocks.filterMap (renderBlock "user") with
      | nil =>
        rw [hfirst] at hnext
        exact head_not_isTool honly' next hnext
      | cons first others =>
        rw [hfirst, List.cons_append] at hnext
        obtain rfl := Option.mem_some_iff.mp hnext
        simpa using hquiet first (hfirst ▸ List.mem_cons_self)

/-- The results answer the open calls and those of the messages. -/
theorem results_eq_calls (hopen : calls ≠ [] → messages ≠ []) (hpaired : Paired messages)
    (honly : OnlyAnswers calls messages) :
    (messages.flatMap ApiMessage.results).map Prod.fst =
      calls.map Use.id ++ (messages.flatMap ApiMessage.uses).map Use.id := by
  induction messages generalizing calls with
  | nil =>
    have hnil : calls = [] := by
      by_contra hne
      exact hopen hne rfl
    rw [hnil]
    rfl
  | cons message rest ih =>
    obtain ⟨-, hresults, honly⟩ := honly
    have hnext : message.uses ≠ [] → rest ≠ [] := by
      intro huses
      obtain ⟨-, answers, blocks, behind, hbehind, -⟩ := hpaired.1 huses
      rw [hbehind]
      exact List.cons_ne_nil _ _
    rw [List.flatMap_cons, List.map_append, hresults, ih hnext hpaired.2 honly, List.flatMap_cons,
      List.map_append]

theorem roles_of_onlyAnswers (h : OnlyAnswers calls messages) :
    ∀ message ∈ messages, message.role ≠ "tool" := by
  induction messages generalizing calls with
  | nil => nofun
  | cons message rest ih =>
    rw [List.forall_mem_cons]
    exact ⟨h.1, ih h.2.2⟩

theorem inputs_of_paired (h : Paired messages) :
    ∀ use ∈ messages.flatMap ApiMessage.uses, ∃ members, use.input = .object members := by
  induction messages with
  | nil => nofun
  | cons message rest ih =>
    intro use huse
    rw [List.flatMap_cons, List.mem_append] at huse
    rcases huse with huse | huse
    · exact (h.1 (List.ne_nil_of_mem huse)).1 use huse
    · exact ih h.2 use huse

/-! ### The whole conversation -/

variable (codec) in
theorem calls_messages (messages : List ApiMessage) :
    (messages.flatMap (rendered codec)).flatMap callsOf =
      (messages.flatMap ApiMessage.uses).map (useCall codec) := by
  rw [List.flatMap_assoc, List.map_flatMap]
  exact List.flatMap_congr fun message _ => calls_rendered codec message

variable (codec) in
theorem results_messages (h : ∀ message ∈ messages, message.role ≠ "tool") :
    ((messages.flatMap (rendered codec)).filter fun wire => IsTool wire).map
        (fun wire => (answersCall wire, textOf wire)) =
      (messages.flatMap ApiMessage.results).map fun result => (some result.1, result.2) := by
  rw [List.filter_flatMap, List.map_flatMap, List.map_flatMap]
  exact List.flatMap_congr fun message hmem => results_rendered codec (h message hmem)

theorem texts_messages (h : ∀ message ∈ messages, message.role ≠ "tool") :
    (((messages.flatMap (rendered codec)).filter fun wire => ¬ IsTool wire).map textOf).filter
        (· ≠ "") =
      (messages.flatMap ApiMessage.texts).filter (· ≠ "") := by
  rw [List.filter_flatMap, List.map_flatMap, List.filter_flatMap, List.filter_flatMap]
  exact List.flatMap_congr fun message hmem => texts_rendered (h message hmem)

/-- **The wire messages keep the conversation**, where results do nothing but answer calls. -/
theorem chatCompat_keeps (systemPrompt : String) (hpaired : Paired messages)
    (honly : OnlyAnswers [] messages) (hreads : ∀ use ∈ messages.flatMap ApiMessage.uses,
      codec.fromStr (codec.toString use.input) = some use.input) :
    Keeps codec systemPrompt messages (chatCompatMessages codec messages systemPrompt) := by
  have hroles := roles_of_onlyAnswers honly
  have hcalls := calls_messages codec messages
  have hresults := results_messages codec hroles
  have htools : ((textMessage "system" systemPrompt :: messages.flatMap (rendered codec)).filter
      fun wire => IsTool wire) = (messages.flatMap (rendered codec)).filter fun wire => IsTool wire :=
    List.filter_cons_of_neg (by simp)
  have hwireCalls : (textMessage "system" systemPrompt ::
      messages.flatMap (rendered codec)).flatMap callsOf =
      (messages.flatMap ApiMessage.uses).map (useCall codec) := by
    rw [List.flatMap_cons, callsOf_textMessage, List.nil_append, hcalls]
  rw [chatCompatMessages_eq]
  refine ⟨?_, ?_, ?_, ?_, ?_⟩
  · intro front message behind heq hopen
    have hanswered :
        Answered (textMessage "system" systemPrompt :: messages.flatMap (rendered codec)) :=
      ⟨fun h => absurd rfl h, answered_messages hpaired honly⟩
    exact hanswered.at heq hopen
  · have hids := congrArg (List.map fun result : Option String × String => result.1) hresults
    have heq := congrArg (List.map some) (results_eq_calls (fun h => absurd rfl h) hpaired honly)
    rw [List.map_map, List.map_map] at hids
    rw [List.map_nil, List.nil_append, List.map_map, List.map_map] at heq
    rw [htools, hwireCalls, List.map_map]
    exact hids.trans heq
  · rw [hwireCalls, List.forall₂_map_left_iff, List.forall₂_same]
    intro use huse
    obtain ⟨members, hmembers⟩ := inputs_of_paired hpaired use huse
    refine ⟨rfl, toolInputToJsonString codec use.input, rfl, ?_⟩
    have hread := hreads use huse
    rw [hmembers] at hread ⊢
    rw [toolInputToJsonString, String.toList_ofList]
    · exact hread
    · exact nofun
  · rw [htools]
    exact hresults
  · rw [List.filter_cons_of_pos (by simp), List.map_cons, textOf_textMessage,
      List.filter_cons, List.filter_cons, texts_messages hroles]

def emptyCodec : JsonCodec where
  fromStr text := if text = "\x7b\x7d".toList then some (.object []) else none
  toString _ := "\x7b\x7d".toList
  parseF64 _ := none

def oneCall : List ApiMessage :=
  [⟨"user", .text "Which branch?"⟩,
    ⟨"assistant", .blocks
      [.thinking "git" "s", .text "I look.", .toolUse "toolu_1" "git_status" (.object [])]⟩,
    ⟨"user", .blocks [.toolResult "toolu_1" "on main", .text "Go on."]⟩]

theorem oneCall_kept :
    Keeps emptyCodec "Be brief." oneCall (chatCompatMessages emptyCodec oneCall "Be brief.") := by
  refine chatCompat_keeps "Be brief." ?_ ?_ ?_
  · refine ⟨fun h => absurd rfl h, ?_, fun h => absurd rfl h, trivial⟩
    intro _
    refine ⟨?_, [("toolu_1", "on main")], [.text "Go on."], [], rfl, rfl⟩
    intro use huse
    rw [List.mem_singleton.mp huse]
    exact ⟨[], rfl⟩
  · exact ⟨by decide, rfl, by decide, rfl, by decide, rfl, trivial⟩
  · intro use huse
    rw [List.mem_singleton.mp huse]
    rfl

/-- A result that answers no call. -/
theorem stray_result_is_sent :
    let messages : List ApiMessage := [⟨"user", .blocks [.toolResult "toolu_1" "done"]⟩]
    let wire := chatCompatMessages ⟨fun _ => none, fun _ => [], fun _ => none⟩ messages ""
    Paired messages ∧ wire.flatMap callsOf = [] ∧
      (wire.filter fun message => IsTool message).map answersCall = [some "toolu_1"] := by
  refine ⟨⟨fun h => absurd rfl h, trivial⟩, rfl, rfl⟩

end Vexcoder.Conversation.ChatCompat

import Vexcoder.Task.PeerChannel

/-!
# What a reader of the channel receives

The channel is a log that is read behind a cursor: an accepted append and a poll are the two events of
such a log, and everything else leaves it alone (`toLog_step`).  So no message is received twice, and
`delivered_iff` says in which runs none is lost.  The stamp comes before the lock, so a message can be
appended behind a cursor that has passed its stamp (`same_millisecond_lost`).
-/

namespace Vexcoder.Task

open Base Lib

/-- What is written of the message is a line that is read as the message. -/
structure PeerMessageCodec.ReadsBack (codec : PeerMessageCodec) (message : PeerMessage) : Prop where
  fromStr : codec.fromStr (codec.toString message) = some message
  trimmed : Text.trim (codec.toString message) = codec.toString message
  notBlank : Text.isEmpty (codec.toString message) = false

namespace ChannelState

variable (codec : PeerMessageCodec) (recipientFilter : Option String)

def accepted (s : ChannelState) (index : ℕ) : Option PeerMessage :=
  match s.waiting[index]? with
  | none => none
  | some message =>
    match appendMessage codec s.lines message with
    | .error _ => none
    | .ok _ => some message

/-- The messages of the file for the reader that no poll has passed. -/
def unread (s : ChannelState) : List PeerMessage :=
  s.appended.filter fun message =>
    addressedTo recipientFilter message &&
      decide (lineBytes (codec.toString message) ≤ maxLineBytes) &&
      decide (s.afterMs < message.sentAt)

/-- The step loses no message: what is appended for the reader fits in a line that is read and has a
stamp above all that was received, and what a poll leaves for the next one has a stamp above those of
its batch. -/
def SafeStep (s : ChannelState) : ChannelEvent → Prop
  | .append index => ∀ message, s.accepted codec index = some message →
      addressedTo recipientFilter message = true →
      lineBytes (codec.toString message) ≤ maxLineBytes ∧ s.afterMs < message.sentAt
  | .poll => ∀ message ∈ (s.unread codec recipientFilter).drop maxChannelReadBatch,
      ∀ first ∈ (s.unread codec recipientFilter).take maxChannelReadBatch,
        first.sentAt < message.sentAt
  | .clock _ | .stamp _ => True

def SafeRun (s : ChannelState) : List ChannelEvent → Prop
  | [] => True
  | event :: events =>
    s.SafeStep codec recipientFilter event ∧ (s.step codec recipientFilter event).SafeRun events

/-! ### The log of the channel -/

def reader : CursorLog.Reader PeerMessage where
  stamp := PeerMessage.sentAt
  wanted := addressedTo recipientFilter
  readable message := decide (lineBytes (codec.toString message) ≤ maxLineBytes)
  batch := maxChannelReadBatch

def toLog (s : ChannelState) : CursorLog.State PeerMessage :=
  { log := s.appended, received := s.received }

def toLogEvents (s : ChannelState) : ChannelEvent → List (CursorLog.Event PeerMessage)
  | .append index => (s.accepted codec index).toList.map .append
  | .poll => [.poll]
  | .clock _ | .stamp _ => []

def runLogEvents (s : ChannelState) : List ChannelEvent → List (CursorLog.Event PeerMessage)
  | [] => []
  | event :: events =>
    s.toLogEvents codec event ++ (s.step codec recipientFilter event).runLogEvents events

/-- The file holds what was appended, and all of it reads back. -/
structure FileInv (s : ChannelState) : Prop where
  lines : s.lines = s.appended.map codec.toString
  readsBack : ∀ message ∈ s.appended, codec.ReadsBack message

variable {codec : PeerMessageCodec} {recipientFilter : Option String} {s : ChannelState}

theorem readLines_spec {messages : List PeerMessage} (h : ∀ message ∈ messages, codec.ReadsBack message)
    (afterMs : ℕ) (results : List PeerMessage) (hresults : results.length < maxChannelReadBatch) :
    readLines codec afterMs recipientFilter results (messages.map codec.toString) =
      results ++ (messages.filter fun message => addressedTo recipientFilter message &&
        decide (lineBytes (codec.toString message) ≤ maxLineBytes) &&
        decide (afterMs < message.sentAt)).take (maxChannelReadBatch - results.length) := by
  induction messages generalizing results with
  | nil => rw [List.map_nil, readLines, List.filter_nil, List.take_nil, List.append_nil]
  | cons message rest ih =>
    obtain ⟨hmessage, hrest⟩ := List.forall_mem_cons.mp h
    rw [List.map_cons, readLines, hmessage.trimmed, hmessage.notBlank, hmessage.fromStr]
    by_cases hfits : lineBytes (codec.toString message) ≤ maxLineBytes
    · rw [if_neg (by simpa using hfits)]
      dsimp only
      by_cases hold : message.sentAt ≤ afterMs
      · rw [if_pos hold, ih hrest _ hresults, List.filter_cons_of_neg (by simp [hold])]
      rw [if_neg hold]
      cases haddressed : addressedTo recipientFilter message with
      | false =>
        rw [if_pos Bool.not_false, ih hrest _ hresults, List.filter_cons_of_neg (by simp [haddressed])]
      | true =>
        have hroom : maxChannelReadBatch - results.length =
            (maxChannelReadBatch - (results ++ [message]).length) + 1 := by
          rw [List.length_append, List.length_singleton]
          omega
        rw [if_neg (by simp), List.filter_cons_of_pos (by simp [haddressed, hfits, Nat.lt_of_not_le hold]),
          hroom, List.take_succ_cons]
        split
        · rename_i hfull
          rw [Nat.sub_eq_zero_of_le hfull, List.take_zero]
        · rename_i hmore
          rw [ih hrest _ (Nat.lt_of_not_le hmore), List.append_assoc, List.singleton_append]
    · rw [if_pos (by simpa using hfits), ih hrest _ hresults, List.filter_cons_of_neg (by simp [hfits])]

theorem batch_eq (h : s.FileInv codec) :
    s.batch codec recipientFilter = (s.unread codec recipientFilter).take maxChannelReadBatch := by
  rw [batch, h.lines]
  exact readLines_spec h.readsBack s.afterMs [] (by decide)

theorem unread_eq :
    s.unread codec recipientFilter = CursorLog.pending (reader codec recipientFilter) s.toLog := rfl

/-! ### Steps -/

theorem appendMessage_ok {lines lines' : List String} {message : PeerMessage}
    (h : appendMessage codec lines message = .ok lines') :
    lines' = lines ++ [codec.toString message] := by
  rw [appendMessage] at h
  split at h
  · cases h
  split at h
  · cases h
  exact (Except.ok.inj h).symm

theorem step_cases (codec : PeerMessageCodec) (recipientFilter : Option String) (s : ChannelState)
    (event : ChannelEvent) :
    ((s.step codec recipientFilter event).lines = s.lines ∧
        (s.step codec recipientFilter event).appended = s.appended ∨
      ∃ index message, event = .append index ∧ s.accepted codec index = some message ∧
        (s.step codec recipientFilter event).lines = s.lines ++ [codec.toString message] ∧
        (s.step codec recipientFilter event).appended = s.appended ++ [message]) := by
  cases event with
  | append index =>
    rw [step]
    cases hwaiting : s.waiting[index]? with
    | none => exact Or.inl ⟨rfl, rfl⟩
    | some message =>
      cases happend : appendMessage codec s.lines message with
      | error _ => exact Or.inl ⟨by simp only [happend], by simp only [happend]⟩
      | ok lines =>
        have hlines := appendMessage_ok happend
        refine Or.inr ⟨index, message, rfl, ?_, ?_, ?_⟩
        · simp only [accepted, hwaiting, happend]
        · simp only [happend, hlines]
        · simp only [happend]
  | _ => exact Or.inl ⟨rfl, rfl⟩

theorem prefix_of_appended (event : ChannelEvent) :
    s.appended <+: (s.step codec recipientFilter event).appended := by
  rcases step_cases codec recipientFilter s event with
    ⟨-, happended⟩ | ⟨_, _, _, _, _, happended⟩
  · simp only [happended, List.prefix_refl]
  · rw [happended]
    exact List.prefix_append _ _

theorem prefix_of_appended_run (events : List ChannelEvent) :
    s.appended <+: (s.run codec recipientFilter events).appended := by
  induction events generalizing s with
  | nil => exact List.prefix_rfl
  | cons event events ih => exact (prefix_of_appended event).trans ih

theorem FileInv.step (h : s.FileInv codec) (event : ChannelEvent)
    (hreads : ∀ message ∈ (s.step codec recipientFilter event).appended,
      codec.ReadsBack message) : (s.step codec recipientFilter event).FileInv codec := by
  refine ⟨?_, hreads⟩
  rcases step_cases codec recipientFilter s event with
    ⟨hlines, happended⟩ | ⟨_, message, _, _, hlines, happended⟩
  · rw [hlines, happended, h.lines]
  · rw [hlines, happended, h.lines, List.map_append, List.map_singleton]

/-- The channel is a log behind a cursor. -/
theorem toLog_step (recipientFilter : Option String) (h : s.FileInv codec) (event : ChannelEvent) :
    (s.step codec recipientFilter event).toLog =
      CursorLog.run (reader codec recipientFilter) s.toLog (s.toLogEvents codec event) := by
  cases event with
  | append index =>
    simp only [ChannelState.step, toLogEvents, accepted]
    cases s.waiting[index]? with
    | none => rfl
    | some message =>
      dsimp only
      cases appendMessage codec s.lines message <;> rfl
  | poll =>
    show CursorLog.State.mk s.appended (s.received ++ s.batch codec recipientFilter) = _
    rw [batch_eq h]
    rfl
  | _ => rfl

theorem safeStep_iff (event : ChannelEvent) :
    s.SafeStep codec recipientFilter event ↔
      CursorLog.AllSafe (reader codec recipientFilter) s.toLog (s.toLogEvents codec event) := by
  cases event with
  | append index =>
    simp only [SafeStep, toLogEvents]
    cases s.accepted codec index with
    | none => exact iff_of_true (fun _ h => by cases h) trivial
    | some message =>
      simp only [Option.some.injEq, forall_eq', Option.toList_some, List.map_singleton,
        CursorLog.AllSafe, CursorLog.Safe, reader, decide_eq_true_eq, and_true]
      exact Iff.rfl
  | poll => exact (and_iff_left trivial).symm
  | _ => exact iff_of_true trivial trivial

theorem allSafe_append {α : Type*} {r : CursorLog.Reader α} {t : CursorLog.State α}
    (events events' : List (CursorLog.Event α)) :
    CursorLog.AllSafe r t (events ++ events') ↔
      CursorLog.AllSafe r t events ∧ CursorLog.AllSafe r (CursorLog.run r t events) events' := by
  induction events generalizing t with
  | nil => exact (and_iff_right trivial).symm
  | cons event events ih =>
    rw [List.cons_append, CursorLog.AllSafe, CursorLog.AllSafe, ih, and_assoc]
    rfl

/-! ### Runs -/

theorem run_log (events : List ChannelEvent) (h : s.FileInv codec)
    (hreads : ∀ message ∈ (s.run codec recipientFilter events).appended, codec.ReadsBack message) :
    (s.run codec recipientFilter events).FileInv codec ∧
      (s.run codec recipientFilter events).toLog = CursorLog.run (reader codec recipientFilter)
        s.toLog (s.runLogEvents codec recipientFilter events) ∧
      (s.SafeRun codec recipientFilter events ↔ CursorLog.AllSafe (reader codec recipientFilter)
        s.toLog (s.runLogEvents codec recipientFilter events)) := by
  induction events generalizing s with
  | nil => exact ⟨h, rfl, Iff.rfl⟩
  | cons event events ih =>
    have hstep : (s.step codec recipientFilter event).FileInv codec :=
      h.step event fun message hmem => hreads message ((prefix_of_appended_run events).subset hmem)
    obtain ⟨hfile, hlog, hsafe⟩ := ih hstep hreads
    have htoLog := toLog_step recipientFilter h event
    refine ⟨hfile, ?_, ?_⟩
    · show ((s.step codec recipientFilter event).run codec recipientFilter events).toLog = _
      rw [hlog, htoLog, runLogEvents, CursorLog.run, CursorLog.run, CursorLog.run, List.foldl_append]
    · rw [SafeRun, hsafe, htoLog, safeStep_iff, runLogEvents, allSafe_append]

theorem fileInv_start : ({} : ChannelState).FileInv codec :=
  ⟨rfl, nofun⟩

/-- **Delivery**: when the last poll of a run gives nothing, the reader has received every message
appended for it exactly once, exactly when every step of the run was safe. -/
theorem delivered_iff (codec : PeerMessageCodec) (recipientFilter : Option String)
    (events : List ChannelEvent)
    (hreads : ∀ message ∈ (run codec recipientFilter {} events).appended, codec.ReadsBack message)
    (hempty : (run codec recipientFilter {} events).batch codec recipientFilter = []) :
    (run codec recipientFilter {} events).received.Perm
        ((run codec recipientFilter {} events).appended.filter (addressedTo recipientFilter)) ↔
      SafeRun codec recipientFilter {} events := by
  obtain ⟨hfile, hlog, hsafe⟩ := run_log events fileInv_start hreads
  have hunread : (run codec recipientFilter {} events).unread codec recipientFilter = [] := by
    rw [batch_eq hfile, List.take_eq_nil_iff] at hempty
    exact hempty.resolve_left (by decide)
  have hstart : ({} : ChannelState).toLog = {} := rfl
  rw [unread_eq, hlog, hstart] at hunread
  have hdelivered := CursorLog.received_all_iff _ hunread
  rw [hstart] at hlog hsafe
  rw [hsafe, ← hdelivered, ← hlog]
  rfl

/-! ### Two messages -/

def kindName : PeerMessageKind → String
  | .statusNote => "Observation"
  | .correction => "Correction"
  | .question => "Question"
  | .acknowledgement => "Acknowledgement"

/-- The line of a message whose texts need no escapes. -/
def plainChars (message : PeerMessage) : List Char :=
  "\x7b\"id\":\"".toList ++ message.id.toList ++ "\",\"sent_at\":".toList ++
    (toString message.sentAt).toList ++ ",\"sender_id\":\"".toList ++ message.senderId.toList ++
    "\",\"sender_agent_id\":\"".toList ++ message.senderAgentId.toList ++
    "\",\"recipient\":\"".toList ++ message.recipient.toList ++ "\",\"kind\":\"".toList ++
    (kindName message.kind).toList ++ "\",\"content\":\"".toList ++ message.content.toList ++
    "\",\"parent_task_id\":\"".toList ++ message.parentTaskId.toList ++ "\"\x7d".toList

def firstMessage : PeerMessage :=
  { id := "m1", sentAt := 5, senderId := "t-a-1", senderAgentId := "a", recipient := "*"
    kind := .statusNote, content := "one", parentTaskId := "t" }

/-- A second message with the stamp `now`. -/
def secondMessage (now : ℕ) : PeerMessage :=
  { firstMessage with id := "m2", sentAt := now, recipient := "b", content := "two" }

def sampleMessages : List PeerMessage := [firstMessage, secondMessage 5, secondMessage 6]

def plainCodec : PeerMessageCodec where
  toString message := String.ofList (plainChars message)
  fromStr line := sampleMessages.find? fun message => String.ofList (plainChars message) = line

theorem sampleMessages_readBack : ∀ message ∈ sampleMessages, plainCodec.ReadsBack message := by
  have hall : ∀ message ∈ sampleMessages,
      (sampleMessages.find? fun other => plainChars other = plainChars message) = some message ∧
        trim (plainChars message) = plainChars message ∧ (plainChars message).isEmpty = false := by
    decide +kernel
  intro message hmem
  obtain ⟨hfind, htrim, hblank⟩ := hall message hmem
  refine ⟨?_, ?_, ?_⟩
  · simp only [plainCodec, String.ofList_inj]
    exact hfind
  · simp only [plainCodec, Text.trim, String.toList_ofList, htrim]
  · simp only [plainCodec, Text.isEmpty, String.toList_ofList, hblank]

/-- The first message is polled before the second one gets its stamp. -/
def twoMessages (now : ℕ) : List ChannelEvent :=
  [.clock 5, .stamp firstMessage, .append 0, .poll, .clock now, .stamp (secondMessage 0), .append 0]

/-- In a later millisecond nothing is lost. -/
theorem delivered_iff_sample :
    (run plainCodec (some "b") {} (twoMessages 6 ++ [.poll])).received.Perm
        ((run plainCodec (some "b") {} (twoMessages 6 ++ [.poll])).appended.filter
          (addressedTo (some "b"))) ↔
      SafeRun plainCodec (some "b") {} (twoMessages 6 ++ [.poll]) := by
  obtain ⟨happended, hempty⟩ : (run plainCodec (some "b") {} (twoMessages 6 ++ [.poll])).appended =
      [firstMessage, secondMessage 6] ∧ (run plainCodec (some "b") {}
        (twoMessages 6 ++ [.poll])).batch plainCodec (some "b") = [] := by decide +kernel
  refine delivered_iff plainCodec (some "b") _ (fun message hmem => ?_) hempty
  rw [happended] at hmem
  exact sampleMessages_readBack message (by revert message; decide)

/-- In the same millisecond the second message is appended at the cursor, and no poll finds it. -/
theorem same_millisecond_lost :
    (run plainCodec (some "b") {} (twoMessages 5)).appended = [firstMessage, secondMessage 5] ∧
      (∀ message ∈ [firstMessage, secondMessage 5], plainCodec.ReadsBack message ∧
        addressedTo (some "b") message = true) ∧
      (run plainCodec (some "b") {} (twoMessages 5)).batch plainCodec (some "b") = [] ∧
      (run plainCodec (some "b") {} (twoMessages 5)).received = [firstMessage] := by
  obtain ⟨happended, hbatch, hreceived⟩ :
      (run plainCodec (some "b") {} (twoMessages 5)).appended = [firstMessage, secondMessage 5] ∧
        (run plainCodec (some "b") {} (twoMessages 5)).batch plainCodec (some "b") = [] ∧
        (run plainCodec (some "b") {} (twoMessages 5)).received = [firstMessage] := by decide +kernel
  refine ⟨happended, fun message hmem => ⟨?_, ?_⟩, hbatch, hreceived⟩
  · exact sampleMessages_readBack message (by revert message; decide)
  · revert message
    decide

end ChannelState

end Vexcoder.Task

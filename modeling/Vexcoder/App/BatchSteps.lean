import Vexcoder.App.BatchTurn
import Vexcoder.Conversation.Frames

/-!
# The steps of a batch run

What each step of the conversation shows, as far as the record of batch mode depends on it.  `FaithfulStep`
is the condition on a step, and `advance_accepted` says that every step that meets it is accepted by
the monitor.
-/

namespace Vexcoder.App

open Base Lib Lib.Assoc Lib.Emitter Vexcoder.Runtime Vexcoder.Task
open Conversation

/-! ### The condition on a step -/

/-- The block that is shown last for a call whose status the executor reports. -/
def reportedCall (m : ConversationManager) (l : Ledger) (toolCallId : String) :
    Option PendingToolCall :=
  match firstCall? toolCallId 0 m.activeEntries with
  | some (_, name, input) => some { name, input }
  | none => find? toolCallId l.waiting

def shownResult (env : Environment) (phase : Phase) (event : Event) : Option (String × Bool) :=
  match event with
  | .signal (.toolCallCompleted toolCallId _ _ _ _ _ _) => some (toolCallId, false)
  | .signal (.toolCallFailed toolCallId _ _ _ _ _ _) => some (toolCallId, true)
  | .signal (.transcriptBlockStart _ (.toolResult toolCallId _ isError)) => some (toolCallId, isError)
  | event => (answeredCall env phase event).map fun (call, isError) => (call.id, isError)

def blockOfResult (m : ConversationManager) (l : Ledger) (event : Event) (toolCallId : String) :
    Option PendingToolCall :=
  match event with
  | .signal _ => find? toolCallId l.waiting
  | _ => reportedCall m l toolCallId

def textBlock? (c : Machine) (event : Event) : Option ℕ :=
  match c.phase, event with
  | .streaming _ r, .signal (.transcriptBlockDelta index delta) =>
    if (find? index r.blockToolCallIds).isSome then none
    else
      match lastBlock? index c.manager.activeEntries with
      | none => none
      | some block =>
        if Text.isEmpty (boundedIncrementalSuffix block.content delta) then none else some index
  | _, _ => none

def argumentsBlock? (phase : Phase) (event : Event) : Option ℕ :=
  match phase, event with
  | .streaming _ r, .signal (.toolCallArgumentsDelta toolCallId _ _ _ _ _) =>
    find? toolCallId r.toolBlockIndices
  | _, _ => none

def isStreamError : Event → Bool
  | .signal (.error ..) => true
  | _ => false

/-- The block of a result is evidence of what the call has done, text goes to blocks that are open and
arguments to others, and the stream reports no error. -/
structure FaithfulStep (env : Environment) (c : Machine) (l : Ledger) (event : Event) : Prop where
  result : ∀ result ∈ shownResult env c.phase event,
    (notedEvidence (blockOfResult c.manager l event result.1) result.2).Same
      (resultEvidence (answeredCall env c.phase event))
  text : ∀ index ∈ textBlock? c event, index ∈ l.openBlocks
  arguments : ∀ index ∈ argumentsBlock? c.phase event, index ∉ l.openBlocks
  noError : isStreamError event = false

instance (env : Environment) (c : Machine) (l : Ledger) (event : Event) :
    Decidable (FaithfulStep env c l event) :=
  decidable_of_iff
    ((∀ result ∈ shownResult env c.phase event,
        (notedEvidence (blockOfResult c.manager l event result.1) result.2).Same
          (resultEvidence (answeredCall env c.phase event))) ∧
      (∀ index ∈ textBlock? c event, index ∈ l.openBlocks) ∧
      (∀ index ∈ argumentsBlock? c.phase event, index ∉ l.openBlocks) ∧
      isStreamError event = false)
    ⟨fun ⟨hresult, htext, harguments, herror⟩ => ⟨hresult, htext, harguments, herror⟩,
      fun ⟨hresult, htext, harguments, herror⟩ => ⟨hresult, htext, harguments, herror⟩⟩

/-! ### What shows neither text deltas nor results -/

/-- A report on which the record does not depend. -/
def PlainReport : Report → Prop
  | .update (.blockDelta ..) => False
  | .update (.blockStart _ (.toolResult ..)) => False
  | .update (.streamError _) => False
  | _ => True

def Plain {α : Type} (x : Emitter ConversationManager Report α) : Prop :=
  Leaves (fun _ => ()) PlainReport x

def Silent {α : Type} (x : Emitter ConversationManager Report α) : Prop :=
  Leaves (fun _ => ()) (fun _ => False) x

variable {α : Type} {x : Emitter ConversationManager Report α}

theorem Silent.plain (h : Silent x) : Plain x :=
  fun m a out m' hrun => ⟨rfl, fun o ho => absurd ((h m a out m' hrun).2 o ho) id⟩

theorem Silent.keeps (h : Silent x) {arguments : Bool} (I : Watch → Prop) :
    Spec (showMonitor arguments) (fun _ w => I w) x fun _ _ w => I w :=
  Leaves.keeps h (fun _ _ _ _ hi => hi) fun _ _ ho => absurd ho id

theorem showMonitor_plain {w : Watch} {report : Report} (h : PlainReport report) :
    ∃ l, showMonitor false w report = some { w with ledger := l } := by
  cases report with
  | update update =>
    cases update with
    | blockDelta | streamError => cases h
    | blockStart index block =>
      cases block with
      | toolResult => cases h
      | _ => exact ⟨_, rfl⟩
    | _ => exact ⟨_, rfl⟩
  | _ => exact ⟨w.ledger, rfl⟩

theorem Plain.keeps (h : Plain x) (due : Option (ToolCall × Bool)) :
    Spec (showMonitor false) (fun _ w => w.due = due) x fun _ _ w => w.due = due := by
  have all {out : List Report} (hout : ∀ o ∈ out, PlainReport o) {w : Watch} (hw : w.due = due) :
      ∃ w', watch (showMonitor false) w out = some w' ∧ w'.due = due := by
    induction out generalizing w with
    | nil => exact ⟨w, rfl, hw⟩
    | cons o out ih =>
      obtain ⟨l, hl⟩ := showMonitor_plain (w := w) (hout o List.mem_cons_self)
      rw [watch, hl]
      exact ih (fun o' ho' => hout o' (List.mem_cons_of_mem _ ho')) hw
  intro m w a out m' hw hrun
  exact all (h m a out m' hrun).2 hw

section Plain

variable (env : Environment)

theorem silent_modify (f : ConversationManager → ConversationManager) :
    Silent (modify f : Emitter ConversationManager Report Unit) := Leaves.modify fun _ => rfl

theorem silent_readClock : Silent (readClock env) :=
  Leaves.bind Leaves.read fun _ => Leaves.bind (silent_modify _) fun _ => Leaves.pure _

theorem silent_applyDocDelta (signal : RuntimeSignal) : Silent (applyDocDelta env signal) := by
  refine Leaves.bind Leaves.read fun m => ?_
  cases m.taskDoc with
  | none => exact Leaves.pure _
  | some doc =>
    exact Leaves.bind (silent_readClock env) fun _ => Leaves.bind (silent_readClock env) fun _ =>
      silent_modify _

variable (t : TurnState) (toolCallId message : String)

theorem silent_takeToolCallTiming (completedAt : ℕ) :
    Silent (takeToolCallTiming env toolCallId completedAt) := by
  refine Leaves.bind Leaves.read fun m => ?_
  cases find? toolCallId m.toolCallStartedAt with
  | none => exact Leaves.pure _
  | some startedAt => exact Leaves.bind (silent_modify _) fun _ => Leaves.pure _

theorem silent_toolResultSignal (toolName : Option String) (output : String) (isError : Bool)
    (completedAt : ℕ) :
    Silent (toolResultSignal env toolCallId toolName output isError completedAt) := by
  refine Leaves.bind (silent_takeToolCallTiming env toolCallId completedAt) fun timing => ?_
  cases isError <;> exact Leaves.pure _

theorem silent_ensureTaskDoc : Silent (ensureTaskDoc env) := by
  refine Leaves.bind Leaves.read fun m => ?_
  cases m.taskDoc with
  | none => exact Leaves.bind (silent_readClock env) fun _ => silent_modify _
  | some doc => exact Leaves.pure _

theorem silent_beginTurnDoc (input : String) (toolPolicy : PulseToolPolicy) :
    Silent (beginTurnDoc env input toolPolicy) := by
  refine Leaves.bind Leaves.read fun m => ?_
  cases m.taskDoc with
  | none => exact Leaves.bind (silent_modify _) fun _ => Leaves.pure _
  | some doc =>
    refine Leaves.bind (silent_readClock env) fun now => ?_
    split
    · exact Leaves.pure _
    · exact Leaves.bind (silent_modify _) fun _ => Leaves.bind (silent_modify _) fun _ =>
        Leaves.pure _

theorem plain_update {u : ConversationStreamUpdate} (h : PlainReport (.update u)) :
    Plain (emitStreamUpdate u) := Leaves.emit h

theorem plain_changesAll : ChangesAll env fun α => Plain (α := α) where
  toClosed := closed_leaves _ _
  doc signal _ := (silent_applyDocDelta env signal).plain
  modify f _ := (silent_modify f).plain
  calm _ hu := plain_update hu
  signal signal := (silent_applyDocDelta env signal).plain
  change f := (silent_modify f).plain
  report _ hreport := Leaves.emit hreport

theorem plain_sendMessage (content : String) (turnToolPolicy : PulseToolPolicy)
    (sharedPrefixContext : Option String) (contextWindowTokens : ℕ) :
    Plain (sendMessage env content turnToolPolicy sharedPrefixContext contextWindowTokens) := by
  refine Leaves.bind (silent_modify _).plain fun _ => ?_
  refine Leaves.bind (silent_ensureTaskDoc env).plain fun _ => ?_
  refine Leaves.bind (silent_beginTurnDoc env _ _).plain fun begun => ?_
  split
  · refine Leaves.bind (Leaves.emit trivial) fun _ => ?_
    refine Leaves.bind (silent_modify _).plain fun _ => ?_
    split
    · exact Leaves.bind (silent_modify _).plain fun _ => Leaves.bind (plain_update trivial) fun _ =>
        (plain_changesAll env).returnTurn _ _ _
    · exact Leaves.bind Leaves.read fun _ => Leaves.pure _
  · exact Leaves.bind (Leaves.emit trivial) fun _ => Leaves.pure _

end Plain

/-! ### Results -/

/-- The result of this id may be noted now. -/
def MayShow (toolCallId : String) (isError : Bool) (w : Watch) : Prop :=
  (notedEvidence (find? toolCallId w.ledger.waiting) isError).Same (resultEvidence w.due)

section Results

variable (env : Environment)

theorem showMonitor_result {toolCallId output : String} {isError : Bool} {index : ℕ} {w : Watch}
    (h : MayShow toolCallId isError w) :
    ∃ w', showMonitor false w (.update (.blockStart index (.toolResult toolCallId output isError))) =
      some w' ∧ w'.due = none :=
  ⟨_, if_pos h, rfl⟩

/-- A result is accepted when its block is evidence of what is due. -/
theorem pushToolResultBlock_accepted (toolCallId output : String) (isError : Bool) :
    Spec (showMonitor false) (fun _ w => MayShow toolCallId isError w)
      (pushToolResultBlock env toolCallId output isError) fun _ _ w => w.due = none := by
  refine Spec.read_any fun m => ?_
  refine Spec.bind ((silent_readClock env).keeps (MayShow toolCallId isError)) fun completedAt => ?_
  refine Spec.bind ((silent_toolResultSignal env _ _ _ _ _).keeps (MayShow toolCallId isError))
    fun signal => ?_
  refine Spec.bind ((silent_applyDocDelta env signal).keeps (MayShow toolCallId isError)) fun _ => ?_
  refine Spec.read_any fun m' => ?_
  refine Spec.bind (R := fun _ _ w => w.due = none) ?_ fun _ =>
    (plain_update (u := .blockComplete _) trivial).keeps none
  exact Spec.emit fun _ w hw => showMonitor_result hw

theorem setToolCallStatus_shows (m : ConversationManager) (l : Ledger)
    (due : Option (ToolCall × Bool)) (toolCallId : String) (status : ToolStatus) :
    Spec (showMonitor false) (fun m₁ w => m₁ = m ∧ w = { ledger := l, due })
      (setToolCallStatus env toolCallId status) fun _ _ w =>
        w.due = due ∧ find? toolCallId w.ledger.waiting = reportedCall m l toolCallId := by
  refine Spec.read fun m₁ => ?_
  cases hcall : firstCall? toolCallId 0 m₁.activeEntries with
  | none =>
    refine Spec.pure ?_
    rintro _ w ⟨rfl, rfl, rfl⟩
    refine ⟨rfl, ?_⟩
    show find? toolCallId l.waiting = _
    rw [reportedCall, hcall]
  | some found =>
    obtain ⟨index, name, input⟩ := found
    refine Spec.bind (R := fun _ _ w => m₁ = m ∧ w = { ledger := l, due }) ?_ fun _ => ?_
    · refine Spec.conseq ((silent_applyDocDelta env _).keeps fun w => m₁ = m ∧ w = { ledger := l, due })
        ?_ fun _ _ _ hw => hw
      rintro _ w ⟨rfl, hm, hw⟩
      exact ⟨hm, hw⟩
    · refine Spec.emit ?_
      rintro _ w ⟨rfl, rfl⟩
      refine ⟨_, rfl, rfl, ?_⟩
      show find? toolCallId (insertLast toolCallId { name, input } l.waiting) = _
      rw [find?_insertLast, if_pos rfl, reportedCall, hcall]

variable {m : ConversationManager} {l : Ledger} {call : ToolCall} {e : ToolRound}

theorem answer_accepted {isError : Bool}
    (h : (notedEvidence (reportedCall m l call.id) isError).Same
      (resultEvidence (some (call, isError)))) (status : ToolStatus) (output : String) {α : Type}
    {rest : Emitter ConversationManager Report α} (hrest : Plain rest) :
    Spec (showMonitor false) (fun m₁ w => m₁ = m ∧ w = { ledger := l, due := some (call, isError) })
      (setToolCallStatus env call.id status >>= fun _ =>
        pushToolResultBlock env call.id output isError >>= fun _ => rest) fun _ _ w => w.due = none := by
  refine Spec.bind (setToolCallStatus_shows env m l _ call.id status) fun _ => ?_
  refine Spec.bind (R := fun _ _ w => w.due = none) ?_ fun _ => hrest.keeps none
  refine Spec.conseq (pushToolResultBlock_accepted env call.id output isError) ?_ fun _ _ _ hw => hw
  rintro _ w ⟨hdue, hfind⟩
  rw [MayShow, hdue, hfind]
  exact h

theorem plain_emitToolError (e : ToolRound) (call : ToolCall) (clarification : String) :
    Plain (emitToolError env e call clarification) :=
  Leaves.bind (plain_update (u := .delta clarification) trivial) fun _ => Leaves.pure _

theorem refuseCall_accepted
    (h : (notedEvidence (reportedCall m l call.id) true).Same (resultEvidence (some (call, true))))
    (clarification : String) :
    Spec (showMonitor false) (fun m₁ w => m₁ = m ∧ w = { ledger := l, due := some (call, true) })
      (refuseCall env e call clarification) fun _ _ w => w.due = none :=
  answer_accepted env h _ _ (plain_emitToolError env e call clarification)

theorem denyCall_accepted
    (h : (notedEvidence (reportedCall m l call.id) true).Same (resultEvidence (some (call, true)))) :
    Spec (showMonitor false) (fun m₁ w => m₁ = m ∧ w = { ledger := l, due := some (call, true) })
      (denyCall env e call) fun _ _ w => w.due = none :=
  answer_accepted env h _ _ (plain_emitToolError env e call _)

theorem recordResult_accepted {t : TurnState} {result : Except String String}
    (h : (notedEvidence (reportedCall m l call.id) (resultIsError result)).Same
      (resultEvidence (some (call, resultIsError result)))) :
    Spec (showMonitor false)
      (fun m₁ w => m₁ = m ∧ w = { ledger := l, due := some (call, resultIsError result) })
      (recordResult env t e call result) fun _ _ w => w.due = none :=
  answer_accepted env h _ _
    (Leaves.bind ((plain_changesAll env).formatForHistory call result) fun _ => Leaves.pure _)

end Results

/-! ### The signals of a stream -/

section Signals

variable (env : Environment)

theorem plain_upsertTurnBlock (index : ℕ) {block : StreamBlock}
    (h : PlainReport (.update (.blockStart index block))) :
    Plain (upsertTurnBlock env index block) := by
  refine Leaves.bind ?_ fun _ => (plain_changesAll env).emitStreamBlockStartUpdate index (plain_update h)
  cases block with
  | thinking | finalText => exact (silent_applyDocDelta env _).plain
  | toolCall id name input status =>
    exact Leaves.bind (silent_readClock env).plain fun _ => Leaves.bind (silent_modify _).plain fun _ =>
      (silent_applyDocDelta env _).plain
  | toolResult => exact Leaves.pure _

theorem padBlock_keeps (toolCallId : String) (isError : Bool) (padIndex : ℕ) :
    Spec (showMonitor false) (fun _ w => MayShow toolCallId isError w) (padBlock env padIndex)
      fun _ _ w => MayShow toolCallId isError w := by
  refine Spec.bind ((silent_applyDocDelta env _).keeps (MayShow toolCallId isError)) fun _ => ?_
  refine Spec.bind ((silent_modify _).keeps (MayShow toolCallId isError)) fun _ => ?_
  exact Spec.emit fun _ w hw => ⟨_, rfl, hw⟩

theorem streamedResult_accepted (index : ℕ) (toolCallId output : String) (isError : Bool) :
    Spec (showMonitor false) (fun _ w => MayShow toolCallId isError w)
      (emitStreamBlockStartUpdate env index (.toolResult toolCallId output isError))
      fun _ _ w => w.due = none := by
  refine Spec.read_any fun m => ?_
  refine Spec.bind (Spec.onlyIf fun _ => Spec.forEach fun pad _ =>
    padBlock_keeps env toolCallId isError pad) fun _ => ?_
  refine Spec.bind ((silent_modify _).keeps (MayShow toolCallId isError)) fun _ => ?_
  exact Spec.emit fun _ w hw => showMonitor_result hw

theorem plain_receiveToolCallStarted (r : RoundState) (toolCallId toolName : String)
    (arguments : Value) (status : ToolStatus) (startedAt : String) :
    Plain (receiveToolCallStarted env r toolCallId toolName arguments status startedAt) := by
  refine Leaves.bind (Leaves.forSome fun _ => (silent_modify _).plain) fun _ => ?_
  refine Leaves.bind ((plain_changesAll env).takePendingBlock r _ _ _) fun r => ?_
  exact Leaves.bind (silent_applyDocDelta env _).plain fun _ => Leaves.pure _

variable {m : ConversationManager} {l : Ledger} {r : RoundState}

theorem receiveBlockDelta_accepted {t : TurnState} {index : ℕ} {delta : String}
    (h : ∀ i ∈ textBlock? { manager := m, phase := .streaming t r }
      (.signal (.transcriptBlockDelta index delta)), i ∈ l.openBlocks) :
    Spec (showMonitor false) (fun m₁ w => m₁ = m ∧ w = { ledger := l, due := none })
      (receiveBlockDelta env r index delta) fun _ _ w => w.due = none := by
  unfold receiveBlockDelta
  split
  · exact Spec.pure fun _ w hw => hw.2 ▸ rfl
  rename_i hcall
  refine Spec.bind (R := fun _ _ w => w.due = none) ?_ fun _ => Spec.pure fun _ _ hw => hw
  refine Spec.read fun m₁ => ?_
  cases hblock : lastBlock? index m₁.activeEntries with
  | none =>
    have hplain : Plain (do
        upsertTurnBlock env index (.thinking delta false)
        pure delta) :=
      Leaves.bind (plain_upsertTurnBlock env index trivial) fun _ => Leaves.pure _
    exact Spec.conseq (hplain.keeps none) (fun _ _ hw => hw.2.2 ▸ rfl) fun _ _ _ hw => hw
  | some block =>
    dsimp only
    split
    · exact Spec.pure fun _ _ hw => hw.2.2 ▸ rfl
    rename_i hfresh
    refine Spec.bind (R := fun _ _ w => m₁ = m ∧ w = { ledger := l, due := none }) ?_ fun _ => ?_
    · refine Spec.conseq
        ((silent_applyDocDelta env _).keeps fun w => m₁ = m ∧ w = { ledger := l, due := none })
        ?_ fun _ _ _ hw => hw
      rintro _ w ⟨rfl, hm, hw⟩
      exact ⟨hm, hw⟩
    · refine Spec.bind (R := fun _ _ w => w.due = none) ?_ fun _ => Spec.pure fun _ _ hw => hw
      refine Spec.emit ?_
      rintro _ w ⟨rfl, rfl⟩
      have hopen : index ∈ l.openBlocks := by
        refine h index ?_
        simp only [textBlock?, hblock, if_neg hcall, if_neg hfresh, Option.mem_some]
      exact ⟨_, if_pos hopen, rfl⟩

theorem receiveToolCallArgumentsDelta_accepted {toolCallId : String}
    (h : ∀ index ∈ find? toolCallId r.toolBlockIndices, index ∉ l.openBlocks)
    (toolName : Option String) (delta : String) (status : ToolStatus) (arguments : Option Value)
    (invalidJson : Bool) : Spec (showMonitor true) (fun _ w => w = { ledger := l, due := none })
      (receiveToolCallArgumentsDelta env r toolCallId toolName delta status arguments invalidJson)
      fun _ _ w => w.due = none := by
  refine Spec.bind (R := fun _ _ w => w = { ledger := l, due := none })
    (Spec.forSome fun index hindex => Spec.emit ?_) fun _ => ?_
  · rintro m w rfl
    exact ⟨_, if_neg (h index hindex), rfl⟩
  refine Spec.bind (R := fun _ _ w => w = { ledger := l, due := none })
    (Spec.forSome fun value _ => Spec.emit fun m w hw => ⟨w, rfl, hw⟩) fun _ => ?_
  refine Spec.bind ((silent_applyDocDelta env _).keeps fun w => w = { ledger := l, due := none })
    fun _ => ?_
  exact Spec.pure fun _ _ hw => hw ▸ rfl

/-- The rest of the step is plain when the first part is. -/
theorem accepted_of_plain {α : Type} {x : Emitter ConversationManager Report α} (h : Plain x) :
    Spec (showMonitor false) (fun m₁ w => m₁ = m ∧ w = { ledger := l, due := none }) x
      fun _ _ w => w.due = none :=
  Spec.conseq (h.keeps none) (fun _ _ hw => hw.2 ▸ rfl) fun _ _ _ hw => hw

theorem receiveSignal_accepted {t : TurnState} {signal : RuntimeSignal}
    (h : FaithfulStep env { manager := m, phase := .streaming t r } l (.signal signal)) :
    Spec (showMonitor (streamsArguments (.signal signal)))
      (fun m₁ w => m₁ = m ∧ w = { ledger := l, due := answeredCall env (.streaming t r) (.signal signal) })
      (receiveSignal env t r signal) fun _ _ w => w.due = none := by
  have last {α β : Type} {x : Emitter ConversationManager Report α} {b : α → β} {arguments : Bool}
      {P : ConversationManager → Watch → Prop}
      (hx : Spec (showMonitor arguments) P x fun _ _ w => w.due = none) :
      Spec (showMonitor arguments) P (x >>= fun a => pure (b a)) fun _ _ w => w.due = none :=
    Spec.bind hx fun _ => Spec.pure fun _ _ hw => hw
  -- a result that the stream itself reports
  have finished {id output : String} {isError : Bool} {due : Option (ToolCall × Bool)}
      (hsame : (notedEvidence (find? id l.waiting) isError).Same (resultEvidence due)) :
      Spec (showMonitor false) (fun m₁ w => m₁ = m ∧ w = { ledger := l, due })
        (applyDocDelta env signal >>= fun _ => pushToolResultBlock env id output isError >>= fun _ =>
          pure (t, { r with completedToolCallIds := id :: r.completedToolCallIds }))
        fun _ _ w => w.due = none := by
    refine Spec.bind (R := fun _ _ w => MayShow id isError w) ?_ fun _ =>
      last (pushToolResultBlock_accepted env id output isError)
    refine Spec.conseq ((silent_applyDocDelta env signal).keeps (MayShow id isError)) ?_
      fun _ _ _ hw => hw
    rintro _ w ⟨-, rfl⟩
    exact hsame
  cases signal with
  | pulseStart | usageUpdated => exact accepted_of_plain (Leaves.pure _)
  | pulseEnd status usage changedFiles =>
    refine accepted_of_plain ?_
    show Plain (if r.sawUsageUpdate then pure _ else pure _)
    split
    all_goals exact Leaves.pure _
  | transcriptLine line =>
    exact accepted_of_plain (Leaves.bind (silent_applyDocDelta env _).plain fun _ =>
      Leaves.bind (plain_update (u := .transcriptLine line) trivial) fun _ => Leaves.pure _)
  | transcriptBlockStart index block =>
    cases block with
    | thinking content collapsed =>
      have hplain : Plain (upsertTurnBlock env index (.thinking content collapsed)) :=
        plain_upsertTurnBlock env index trivial
      exact last (accepted_of_plain (Leaves.bind hplain fun _ => Leaves.pure _))
    | finalText content =>
      have hplain : Plain (upsertTurnBlock env index (.finalText content)) :=
        plain_upsertTurnBlock env index trivial
      exact last (accepted_of_plain (Leaves.bind hplain fun _ => Leaves.pure _))
    | toolCall => exact accepted_of_plain (Leaves.bind (Leaves.pure _) fun _ => Leaves.pure _)
    | toolResult id output isError =>
      refine last (last (Spec.conseq (streamedResult_accepted env index id output isError) ?_
        fun _ _ _ hw => hw))
      rintro _ w ⟨-, rfl⟩
      exact h.result (id, isError) rfl
  | transcriptBlockDelta index delta => exact last (receiveBlockDelta_accepted env h.text)
  | transcriptBlockComplete index =>
    exact accepted_of_plain (Leaves.bind (Leaves.onlyIf (silent_applyDocDelta env _).plain) fun _ =>
      Leaves.bind (plain_update (u := .blockComplete index) trivial) fun _ => Leaves.pure _)
  | transcriptBlockPhaseUpdated | toolCallStatusUpdated | approvalRequest | approvalResolved
  | validationResult | maxTurnsReached =>
    exact accepted_of_plain (Leaves.bind (silent_applyDocDelta env _).plain fun _ => Leaves.pure _)
  | toolCallStarted id name arguments status startedAt =>
    exact accepted_of_plain (Leaves.bind (plain_receiveToolCallStarted env r id name arguments status
      startedAt) fun _ => Leaves.pure _)
  | toolCallArgumentsDelta id name delta status arguments invalidJson =>
    refine last (Spec.conseq (receiveToolCallArgumentsDelta_accepted env h.arguments name delta status
      arguments invalidJson) (fun _ _ hw => hw.2) fun _ _ _ hw => hw)
  | toolCallCompleted id => exact finished (h.result (id, false) rfl)
  | toolCallFailed id => exact finished (h.result (id, true) rfl)
  | serverMetadata metadata =>
    have hshow : Plain (emitStreamUpdate (.serverMetadata metadata)) := plain_update trivial
    exact accepted_of_plain (Leaves.bind (Leaves.onlyIf hshow) fun _ =>
      Leaves.bind (silent_applyDocDelta env _).plain fun _ => Leaves.pure _)
  | error => exact absurd h.noError Bool.true_eq_false.mp

end Signals

/-! ### Every step -/

/-- **A faithful step** shows the result that is due, and nothing that goes wrong. -/
theorem advance_accepted (env : Environment) (phase : Phase) (event : Event) (m : ConversationManager)
    (l : Ledger) (h : FaithfulStep env { manager := m, phase } l event) :
    Spec (showMonitor (streamsArguments event))
      (fun m₁ w => m₁ = m ∧ w = { ledger := l, due := answeredCall env phase event })
      (advance env phase event) fun _ _ w => w.due = none := by
  have result {call : ToolCall} {isError : Bool}
      (hanswered : answeredCall env phase event = some (call, isError))
      (hshown : shownResult env phase event = some (call.id, isError))
      (hblock : blockOfResult m l event call.id = reportedCall m l call.id) :
      (notedEvidence (reportedCall m l call.id) isError).Same (resultEvidence (some (call, isError))) := by
    have hsame := h.result (call.id, isError) hshown
    rwa [hanswered, hblock] at hsame
  revert h result
  refine advance_cases env
    (M := fun phase event x => FaithfulStep env { manager := m, phase } l event →
      (∀ {call : ToolCall} {isError : Bool}, answeredCall env phase event = some (call, isError) →
        shownResult env phase event = some (call.id, isError) →
        blockOfResult m l event call.id = reportedCall m l call.id →
        (notedEvidence (reportedCall m l call.id) isError).Same (resultEvidence (some (call, isError)))) →
      Spec (showMonitor (streamsArguments event))
        (fun m₁ w => m₁ = m ∧ w = { ledger := l, due := answeredCall env phase event }) x
        fun _ _ w => w.due = none)
    ?crash ?send ?clear ?condensing ?compacting ?roundTop ?opened ?failed ?signal ?streamError ?ended
    ?roundEnd ?callsDone ?call ?approval ?tool ?tools ?recorded ?record ?cancel phase event
  case crash => exact fun _ _ _ _ => Spec.crash
  case send => exact fun _ _ _ _ _ _ => accepted_of_plain (plain_sendMessage env _ _ _ _)
  case clear =>
    exact fun _ _ => accepted_of_plain (Leaves.bind (silent_modify _).plain fun _ =>
      Leaves.bind (Leaves.emit (show PlainReport .cleared from trivial)) fun _ => Leaves.pure _)
  case condensing =>
    exact fun _ _ _ => accepted_of_plain (Leaves.bind Leaves.read fun _ =>
      Leaves.bind (silent_modify _).plain fun _ => Leaves.pure _)
  case compacting => exact fun t _ _ => accepted_of_plain ((plain_changesAll env).compactProactively t)
  case roundTop => exact fun t _ _ => accepted_of_plain ((plain_changesAll env).startRound t)
  case opened =>
    exact fun _ _ _ => accepted_of_plain
      (Leaves.bind (Leaves.emit (show PlainReport .streamOpened from trivial)) fun _ => Leaves.pure _)
  case failed => exact fun t _ _ _ => accepted_of_plain ((plain_changesAll env).streamFailed t _)
  case signal =>
    exact fun t r signal h _ => Spec.bind (receiveSignal_accepted env h) fun _ =>
      Spec.pure fun _ _ hw => hw
  case streamError => exact fun _ _ _ _ _ => accepted_of_plain ((plain_changesAll env).returnTurn _ _ _)
  case ended => exact fun _ _ _ _ => accepted_of_plain (Leaves.pure _)
  case roundEnd => exact fun t r _ _ => accepted_of_plain ((plain_changesAll env).endRound t r)
  case callsDone =>
    intro t e hremaining _ _
    have hnone : answeredCall env (.executing t e) .tick = none := by
      simp only [answeredCall, hremaining]
    rw [hnone]
    exact accepted_of_plain (Leaves.bind (silent_modify _).plain fun _ => Leaves.pure _)
  case call =>
    intro t e call remaining hremaining _ result
    unfold takeCall
    cases hguard : guardClarification env t call with
    | some clarification =>
      have hanswered : answeredCall env (.executing t e) .tick = some (call, true) := by
        simp only [answeredCall, hremaining, hguard, Option.isSome_some, if_true]
      have hshown : shownResult env (.executing t e) .tick = some (call.id, true) := by
        rw [shownResult, hanswered]
        · rfl
        all_goals exact nofun
      rw [hanswered]
      exact Spec.bind (refuseCall_accepted env (result hanswered hshown rfl) clarification) fun _ =>
        Spec.pure fun _ _ hw => hw
    | none =>
      have hanswered : answeredCall env (.executing t e) .tick = none := by
        simp only [answeredCall, hremaining, hguard, Option.isSome_none, Bool.false_eq_true, if_false]
      rw [hanswered]
      refine accepted_of_plain ?_
      dsimp only
      split
      · have hshow (request : ToolApprovalRequest) :
            Plain (emitStreamUpdate (.toolApprovalRequest request)) := plain_update trivial
        exact Leaves.bind ((plain_changesAll env).setToolCallStatus _ _) fun _ => Leaves.bind (hshow _) fun _ =>
          Leaves.pure _
      · exact Leaves.bind ((plain_changesAll env).setToolCallStatus _ _) fun _ => Leaves.pure _
  case approval =>
    intro t e call approved _ result
    cases approved with
    | true =>
      exact accepted_of_plain (Leaves.bind ((plain_changesAll env).setToolCallStatus _ _) fun _ => Leaves.pure _)
    | false =>
      exact Spec.bind (denyCall_accepted env (result rfl rfl rfl)) fun _ =>
        Spec.pure fun _ _ hw => hw
  case tool =>
    intro t e call outcome _ result
    exact Spec.bind (recordResult_accepted env (result rfl rfl rfl)) fun _ =>
      Spec.pure fun _ _ hw => hw
  case tools => exact fun _ _ _ _ _ _ => accepted_of_plain (Leaves.pure _)
  case recorded =>
    intro t e results hdone _ _
    have hnone : answeredCall env (.recording t e results) .tick = none := by
      rcases hdone with hdone | rfl
      · simp only [answeredCall, hdone]
      · cases hremaining : e.remaining <;> simp only [answeredCall, hremaining]
    rw [hnone]
    exact accepted_of_plain (Leaves.bind (silent_modify _).plain fun _ => Leaves.pure _)
  case record =>
    intro t e call remaining outcome results hremaining _ result
    have hanswered : answeredCall env (.recording t e (outcome :: results)) .tick =
        some (call, resultIsError outcome) := by
      simp only [answeredCall, hremaining]
    have hshown : shownResult env (.recording t e (outcome :: results)) .tick =
        some (call.id, resultIsError outcome) := by
      rw [shownResult, hanswered]
      · rfl
      all_goals exact nofun
    rw [hanswered]
    exact Spec.bind (recordResult_accepted env (result hanswered hshown rfl)) fun _ =>
      Spec.pure fun _ _ hw => hw
  case cancel =>
    intro phase _ _ _
    have hnone : answeredCall env phase .cancel = none := by
      cases phase <;> rfl
    rw [hnone]
    exact accepted_of_plain
      (Leaves.bind (Leaves.emit (show PlainReport .cancelled from trivial)) fun _ => Leaves.pure _)

end Vexcoder.App

import Vexcoder.Conversation.CallTable
import Vexcoder.Conversation.Lifecycle

/-!
# The input of a call

The arguments of a call are kept twice: in the blocks of the round, from which the call is executed,
and in the task document, from which it is shown.  The task document keeps the arguments with which
the call was started, for the round the last ones that the stream has reported count.
-/

namespace Vexcoder.Conversation

open Base Lib Lib.Assoc Lib.Emitter Vexcoder.Runtime Vexcoder.Task

/-! ### The calls in the task document -/

def PulseEntry.call? : PulseEntry → Option (String × Value)
  | .toolCall _ id _ input _ => some (id, input)
  | _ => none

/-- The ids and inputs of the calls of the running turn, in order. -/
def callInputs (m : ConversationManager) : List (String × Value) :=
  m.activeEntries.filterMap PulseEntry.call?

/-- The input under which `set_tool_call_status` shows the call. -/
def recordedInput (id : String) (m : ConversationManager) : Option Value :=
  (firstCall? id 0 m.activeEntries).map fun call => call.2.2

theorem recordedInput_eq (id : String) (m : ConversationManager) :
    recordedInput id m = find? id (callInputs m) := by
  have hfirst : ∀ (entries : List PulseEntry) (i : ℕ),
      (firstCall? id i entries).map (fun call => call.2.2) =
        find? id (entries.filterMap PulseEntry.call?) := by
    intro entries
    induction entries with
    | nil => exact fun _ => rfl
    | cons entry entries ih =>
      intro i
      cases entry with
      | toolCall stepId id' name input status =>
        simp only [firstCall?, PulseEntry.call?, List.filterMap_cons, find?]
        by_cases h : id = id'
        · rw [if_pos h.symm, if_pos h]
          rfl
        · rw [if_neg (Ne.symm h), if_neg h]
          exact ih (i + 1)
      | _ => simpa only [firstCall?, PulseEntry.call?, List.filterMap_cons] using ih (i + 1)
  exact hfirst m.activeEntries 0

theorem filterMap_updateFirst {α β : Type} {f : α → Option α} {g : α → Option β}
    (h : ∀ a a', f a = some a' → g a' = g a) (l : List α) :
    (updateFirst f l).filterMap g = l.filterMap g := by
  induction l with
  | nil => rfl
  | cons a l ih =>
    unfold updateFirst
    cases hf : f a with
    | none => simp only [List.filterMap_cons, ih]
    | some a' => simp only [List.filterMap_cons, h a a' hf]

theorem callInputs_updateBlockContent (index : ℕ) (mutate : AssistantBlockEntry → AssistantBlockEntry)
    (active : ActiveTurnDocument) :
    (updateBlockContent index mutate active).entries.filterMap PulseEntry.call? =
      active.entries.filterMap PulseEntry.call? := by
  unfold updateBlockContent
  rw [List.filterMap_reverse, filterMap_updateFirst, ← List.filterMap_reverse, List.reverse_reverse]
  intro entry entry' h
  cases entry with
  | assistantBlock stepId block =>
    dsimp only at h
    split at h
    · obtain rfl := Option.some.inj h
      rfl
    · cases h
  | _ => cases h

theorem callInputs_setCallStatus (toolCallId : String) (status : ToolStatus) (active : ActiveTurnDocument) :
    (setCallStatus toolCallId status active).entries.filterMap PulseEntry.call? =
      active.entries.filterMap PulseEntry.call? := by
  refine filterMap_updateFirst (fun entry entry' h => ?_) _
  cases entry with
  | toolCall stepId id name input old =>
    dsimp only at h
    split at h
    · obtain rfl := Option.some.inj h
      rfl
    · cases h
  | _ => cases h

/-- The calls of the running turn of a task document. -/
def docCalls (doc : TaskDocument) : List (String × Value) :=
  match doc.activePulse with
  | some active => active.entries.filterMap PulseEntry.call?
  | none => []

variable {doc : TaskDocument} {m : ConversationManager} {out : List Report} {c c' : Machine}
  {record : List (String × Value) × List ApiMessage}

variable (now : ℕ)

theorem docCalls_applyToActive {active : ActiveTurnDocument}
    (hactive : doc.activePulse = some active) (signal : RuntimeSignal) :
    docCalls (doc.applyToActive now active signal).1 = docCalls doc ++ (startedCall? signal).toList := by
  have hdoc : docCalls doc = active.entries.filterMap PulseEntry.call? := by
    rw [docCalls, hactive]
  have hpush : ∀ {doc' : TaskDocument} {active' : ActiveTurnDocument} {entries : List PulseEntry}
      (entry : PulseEntry), doc'.activePulse = some active' → active'.entries = entries ++ [entry] →
      entries.filterMap PulseEntry.call? = active.entries.filterMap PulseEntry.call? →
      docCalls doc' = docCalls doc ++ (PulseEntry.call? entry).toList := by
    intro doc' active' entries entry hdoc' hactive' hsame
    rw [hdoc, ← hsame, docCalls, hdoc']
    dsimp only
    rw [hactive']
    cases hcall : PulseEntry.call? entry <;> simp [hcall]
  have hset : ∀ {active' : ActiveTurnDocument},
      active'.entries.filterMap PulseEntry.call? = active.entries.filterMap PulseEntry.call? →
      docCalls (doc.setActive active') = docCalls doc ++ [] := by
    intro active' hsame
    rw [hdoc, ← hsame, List.append_nil]
    rfl
  have hself : docCalls doc = docCalls doc ++ [] := (List.append_nil _).symm
  cases signal with
  | transcriptLine line => exact hpush (.systemNotice doc.info.nextStepId line .info) rfl rfl rfl
  | transcriptBlockStart index block =>
    cases block with
    | thinking content collapsed =>
      exact hpush (.assistantBlock doc.info.nextStepId
        { blockIndex := index, phase := .thinking, content, collapsed, streaming := true }) rfl rfl rfl
    | finalText content =>
      exact hpush (.assistantBlock doc.info.nextStepId
        { blockIndex := index, phase := .final, content, collapsed := false, streaming := true })
        rfl rfl rfl
    | _ => exact hself
  | transcriptBlockDelta index delta | transcriptBlockComplete index
  | transcriptBlockPhaseUpdated index phase streaming =>
    exact hset (callInputs_updateBlockContent _ _ _)
  | toolCallStatusUpdated toolCallId status => exact hset (callInputs_setCallStatus _ _ _)
  | toolCallStarted toolCallId toolName arguments status startedAt =>
    exact hpush (.toolCall doc.info.nextStepId toolCallId toolName arguments status) rfl rfl rfl
  | toolCallCompleted toolCallId toolName status startedAt completedAt durationMs output =>
    exact hpush (.toolResult doc.info.nextStepId toolCallId toolName output false) rfl rfl
      (callInputs_setCallStatus _ _ _)
  | toolCallFailed toolCallId toolName status startedAt completedAt durationMs output =>
    exact hpush (.toolResult doc.info.nextStepId toolCallId toolName output true) rfl rfl
      (callInputs_setCallStatus _ _ _)
  | approvalRequest capability scope toolName =>
    simp only [TaskDocument.applyToActive]
    split
    · exact hpush (.approvalRequest doc.info.nextStepId _) rfl rfl rfl
    · exact hself
  | approvalResolved capability scope approved =>
    simp only [TaskDocument.applyToActive]
    split
    · exact hpush (.approvalResolved doc.info.nextStepId _ _ approved) rfl rfl rfl
    · exact hself
  | serverMetadata metadata | pulseEnd status usage changedFiles => exact hset rfl
  | _ => exact hself

theorem docCalls_applyToTask (signal : RuntimeSignal) (doc : TaskDocument) (summary : TaskMutationSummary) :
    docCalls (TaskDocument.applyToTask signal doc summary).1 = docCalls doc := by
  cases signal with
  | error code message recoverable => cases recoverable <;> rfl
  | _ => rfl

/-- A signal adds the call that it starts, and changes no other. -/
theorem docCalls_applyRuntimeSignal (now' : ℕ) (hopen : doc.activePulse.isSome = true)
    (signal : RuntimeSignal) :
    docCalls (doc.applyRuntimeSignal now now' signal).1 = docCalls doc ++ (startedCall? signal).toList := by
  obtain ⟨active, hactive⟩ := Option.isSome_iff_exists.mp hopen
  have hkept := docCalls_applyToActive now hactive signal
  simp only [TaskDocument.applyRuntimeSignal, hactive]
  generalize doc.applyToActive now active signal = r at hkept
  obtain ⟨doc', summary, returned⟩ := r
  cases returned with
  | true => exact hkept
  | false => exact (docCalls_applyToTask signal doc' summary).trans hkept

theorem docCalls_applyRuntimeSignal_closed (now' : ℕ) (hclosed : doc.activePulse = none)
    (signal : RuntimeSignal) :
    docCalls (doc.applyRuntimeSignal now now' signal).1 = docCalls doc := by
  simp only [TaskDocument.applyRuntimeSignal, hclosed, Bool.false_eq_true, if_false]
  exact docCalls_applyToTask signal doc {}

theorem callInputs_eq (m : ConversationManager) : callInputs m = (m.taskDoc.map docCalls).getD [] := by
  unfold callInputs ConversationManager.activeEntries ConversationManager.activePulse docCalls
  cases m.taskDoc with
  | none => rfl
  | some doc => cases h : doc.activePulse <;> simp [h]

/-! ### The operations -/

variable (env : Environment)

theorem applyDocDelta_callInputs {m' : ConversationManager} (hopen : m.activePulse.isSome = true)
    {signal : RuntimeSignal} (hrun : applyDocDelta env signal m = some ((), out, m')) :
    callInputs m' = callInputs m ++ (startedCall? signal).toList := by
  obtain ⟨active, hactive⟩ := Option.isSome_iff_exists.mp hopen
  obtain ⟨doc, hdoc, hpulse⟩ := Option.bind_eq_some_iff.mp hactive
  rw [applyDocDelta_run_some env hdoc] at hrun
  obtain ⟨rfl, rfl⟩ := by simpa using hrun
  rw [callInputs_eq, callInputs_eq, hdoc]
  exact docCalls_applyRuntimeSignal _ _ (by rw [hpulse]; rfl) signal

/-- The calls of the task document, and the messages. -/
def callRecord (m : ConversationManager) : List (String × Value) × List ApiMessage :=
  (callInputs m, m.apiMessages)

theorem frame_callRecord : Frame env callRecord where
  doc signal hsignal := by
    intro m a out m' hrun
    obtain ⟨hkept, hshown⟩ := quiet_applyDocDelta env signal m a out m' hrun
    refine ⟨Prod.ext ?_ (congrArg Kept.messages hkept), hshown⟩
    show callInputs m' = callInputs m
    cases hdoc : m.taskDoc with
    | none =>
      rw [applyDocDelta_run_none env hdoc] at hrun
      obtain ⟨rfl, rfl⟩ := by simpa using hrun
      rfl
    | some doc =>
      cases hpulse : doc.activePulse with
      | none =>
        rw [applyDocDelta_run_some env hdoc] at hrun
        obtain ⟨rfl, rfl⟩ := by simpa using hrun
        rw [callInputs_eq, callInputs_eq, hdoc]
        exact docCalls_applyRuntimeSignal_closed _ _ hpulse signal
      | some active =>
        have hopen : m.activePulse.isSome = true := by
          rw [ConversationManager.activePulse, hdoc, Option.bind_some, hpulse]
          rfl
        rw [applyDocDelta_callInputs env hopen hrun, hsignal]
        exact List.append_nil _
  fields m m' hmessages hcache hdoc _ := by
    rw [callRecord, callRecord, hmessages, callInputs_eq, callInputs_eq, hdoc]

/-! ### The stream of a round -/

/-- The machine receives a stream; the calls of the document and of the round are these. -/
def Receiving (calls : List (String × Value)) (inputs : String → Option Value) (c : Machine) : Prop :=
  c.manager.activePulse.isSome = true ∧ callInputs c.manager = calls ∧
    ∃ t r, c.phase = .streaming t r ∧ Placed r ∧ ∀ id, r.input? id = inputs id

theorem receiveToolCallStarted_callInputs {m' : ConversationManager}
    (hopen : m.activePulse.isSome = true) {r r' : RoundState} {toolCallId toolName : String}
    {arguments : Value} {status : ToolStatus} {startedAt : String}
    (hrun : receiveToolCallStarted env r toolCallId toolName arguments status startedAt m =
      some (r', out, m')) : callInputs m' = callInputs m ++ [(toolCallId, arguments)] := by
  have hframe := (frame_callRecord env).showsAll
  obtain ⟨⟨⟩, out₁, m₁, _, hrecord, hrest, -⟩ := bind_eq_some hrun
  obtain ⟨r₂, out₂, m₂, _, htake, hrest₂, -⟩ := bind_eq_some hrest
  obtain ⟨⟨⟩, out₃, m₃, _, hdoc, hrest₃, -⟩ := bind_eq_some hrest₂
  obtain ⟨-, -, rfl⟩ := by simpa using hrest₃
  have hrecorded : Leaves callRecord Report.IsUpdate (forSome (env.parseTimestamp startedAt)
      fun startedAt => recordToolCallStartedAt toolCallId startedAt) :=
    Leaves.forSome fun _ => hframe.recordToolCallStartedAt _ _
  have hrecorded' : Quiet (forSome (env.parseTimestamp startedAt)
      fun startedAt => recordToolCallStartedAt toolCallId startedAt) :=
    Leaves.forSome fun _ => (frame_kept env).showsAll.recordToolCallStartedAt _ _
  have hcalls₁ := congrArg Prod.fst (hrecorded m () out₁ m₁ hrecord).1
  have hcalls₂ := congrArg Prod.fst (hframe.takePendingBlock _ _ _ _ m₁ r₂ out₂ m₂ htake).1
  have hopen₁ := isOpen_of_kept (hrecorded' m () out₁ m₁ hrecord).1
  have hopen₂ := isOpen_of_kept ((frame_kept env).showsAll.takePendingBlock _ _ _ _ m₁ r₂ out₂ m₂ htake).1
  rw [applyDocDelta_callInputs env (hopen₂.trans (hopen₁.trans hopen)) hdoc]
  simp only [callRecord] at hcalls₁ hcalls₂
  rw [hcalls₂, hcalls₁]
  rfl

/-- A signal adds to the calls of the document what it starts, and to those of the round what it
reports. -/
theorem signal_receiving {calls : List (String × Value)} {inputs : String → Option Value}
    (h : Receiving calls inputs c) {signal : RuntimeSignal}
    (hstep : step env (.signal signal) c = some ((), out, c')) :
    Receiving (calls ++ (startedCall? signal).toList) (fun id => reportInput id (inputs id) signal)
      c' := by
  obtain ⟨hopen, rfl, t, r, hphase, hplaced, hinputs⟩ := h
  have hadvance := advance_of_step env hstep
  rw [hphase] at hadvance
  obtain ⟨⟨t', r'⟩, out₁, m', out₂, hsignal, hrest, rfl⟩ := bind_eq_some hadvance
  obtain ⟨hphase', -, rfl⟩ := by simpa using hrest
  have hkept := (quiet_receiveSignal env t r signal c.manager (t', r') out₁ c'.manager hsignal).1
  obtain ⟨hplaced', hinputs'⟩ :=
    receiveSignal_placed env t hplaced signal c.manager (t', r') out₁ c'.manager hsignal
  refine ⟨(isOpen_of_kept hkept).trans hopen, ?_, t', r', hphase'.symm, hplaced',
    fun id => (hinputs' id).trans (by rw [hinputs])⟩
  cases hstarted : startedCall? signal with
  | none =>
    have hrecord := ((frame_callRecord env).showsAll.receiveSignal t r hstarted c.manager (t', r') out₁
      c'.manager hsignal).1
    exact (congrArg Prod.fst hrecord).trans (List.append_nil _).symm
  | some call =>
    cases signal with
    | toolCallStarted toolCallId toolName arguments status startedAt =>
      obtain rfl := Option.some.inj hstarted
      obtain ⟨r₁, out₃, m₁, out₄, hreceive, hpure, -⟩ := bind_eq_some hsignal
      obtain ⟨-, -, rfl⟩ := by simpa using hpure
      exact receiveToolCallStarted_callInputs env hopen hreceive
    | _ => cases hstarted

/-- The last input that the signals report for the call. -/
def lastReported (signals : List RuntimeSignal) (id : String) : Option Value :=
  signals.foldl (reportInput id) none

theorem signals_receiving (signals : List RuntimeSignal) {calls : List (String × Value)}
    {inputs : String → Option Value} (h : Receiving calls inputs c)
    (hrun : run env (signals.map Event.signal) c = some ((), out, c')) :
    Receiving (calls ++ signals.filterMap startedCall?)
      (fun id => signals.foldl (reportInput id) (inputs id)) c' := by
  induction signals generalizing calls inputs c out with
  | nil =>
    obtain ⟨-, rfl⟩ := by simpa [run, forEach] using hrun
    rw [List.filterMap_nil, List.append_nil]
    exact h
  | cons signal signals ih =>
    obtain ⟨⟨⟩, out₁, c₁, out₂, hstep, hrest, rfl⟩ := bind_eq_some hrun
    have h' := ih (signal_receiving env h hstep) hrest
    rw [List.append_assoc] at h'
    have hstarted : (signal :: signals).filterMap startedCall? =
        (startedCall? signal).toList ++ signals.filterMap startedCall? := by
      cases hcall : startedCall? signal <;> simp [hcall]
    rw [hstarted]
    exact h'

/-! ### The phases without calls -/

/-- No call of a round is pending. -/
def Phase.isBetweenRounds : Phase → Bool
  | .idle | .condensing _ | .compacting _ | .roundTop _ | .requesting _ => true
  | _ => false

section BetweenRounds

theorem returnTurn_between (outcome : PulseOutcome) (tokens : PulseTokens) (result : Except String String) :
    Ensures (returnTurn env outcome tokens result) fun phase => phase.isBetweenRounds = true :=
  Ensures.last fun _ => Ensures.last fun _ => Ensures.pure rfl

theorem returnGuarded_between (message : String) :
    Ensures (returnGuarded env message) fun phase => phase.isBetweenRounds = true :=
  Ensures.last fun _ => Ensures.last fun _ => returnTurn_between env _ _ _

theorem sendMessage_between (content : String) (turnToolPolicy : PulseToolPolicy)
    (sharedPrefixContext : Option String) (contextWindowTokens : ℕ) :
    Ensures (sendMessage env content turnToolPolicy sharedPrefixContext contextWindowTokens)
      fun phase => phase.isBetweenRounds = true := by
  refine Ensures.last fun _ => Ensures.last fun _ => Ensures.last fun begun => ?_
  cases begun with
  | false => exact Ensures.last fun _ => Ensures.pure rfl
  | true =>
    refine Ensures.last fun _ => Ensures.last fun _ => ?_
    cases builtinSupportedGitToolsResponse content with
    | some response =>
      exact Ensures.last fun _ => Ensures.last fun _ => returnTurn_between env _ _ _
    | none => exact Ensures.last fun _ => Ensures.pure rfl

variable (t : TurnState)

theorem compactProactively_between :
    Ensures (compactProactively env t) fun phase => phase.isBetweenRounds = true := by
  refine Ensures.last fun m => Ensures.last fun _ => ?_
  cases (proactiveCompaction env m t).2 with
  | none => exact Ensures.pure rfl
  | some counts => exact Ensures.last fun _ => Ensures.pure rfl

theorem startRound_between : Ensures (startRound env t) fun phase => phase.isBetweenRounds = true := by
  refine Ensures.last fun _ => Ensures.last fun m => Ensures.last fun _ => ?_
  dsimp only
  split
  · exact Ensures.last fun _ => returnTurn_between env _ _ _
  · exact Ensures.last fun _ => Ensures.last fun _ => Ensures.last fun _ => Ensures.pure rfl

theorem streamFailed_between (message : String) :
    Ensures (streamFailed env t message) fun phase => phase.isBetweenRounds = true := by
  unfold streamFailed
  split
  · exact Ensures.last fun _ => Ensures.last fun _ => Ensures.last fun _ => Ensures.pure rfl
  · exact returnTurn_between env _ _ _

theorem endWithoutCalls_between (text : String) :
    Ensures (endWithoutCalls env t text) fun phase => phase.isBetweenRounds = true := by
  unfold endWithoutCalls
  dsimp only
  split
  · exact Ensures.last fun _ => Ensures.pure rfl
  · split
    · exact returnGuarded_between env _
    · exact Ensures.last fun _ => Ensures.last fun _ => returnTurn_between env _ _ _

theorem finishCalls_between (e : ToolRound) :
    Ensures (finishCalls t e) fun phase => phase.isBetweenRounds = true :=
  Ensures.last fun _ => Ensures.pure rfl

end BetweenRounds

/-! ### The calls behind the stream -/

/-- The calls that are still to be answered are among `calls`, and task document and messages stand as
the end of the stream has left them. -/
def AfterStream (calls : List ToolCall) (record : List (String × Value) × List ApiMessage)
    (phase : Phase) (m : ConversationManager) : Prop :=
  match phase with
  | .executing _ e | .parallel _ e | .recording _ e _ =>
    callRecord m = record ∧ ∀ call ∈ e.remaining, call ∈ calls
  | .approving _ e call | .running _ e call =>
    callRecord m = record ∧ ∀ next ∈ call :: e.remaining, next ∈ calls
  | .streaming .. | .roundEnd .. => False
  | _ => True

theorem AfterStream.of_between {calls : List ToolCall} {phase : Phase}
    (h : phase.isBetweenRounds = true) (m : ConversationManager) :
    AfterStream calls record phase m := by
  cases phase <;> trivial

def anyReport (_ : Unit) (_ : Report) : Option Unit := some ()

theorem spec_of_between {calls : List ToolCall} {P : ConversationManager → Unit → Prop}
    {x : Emitter ConversationManager Report Phase} (h : Ensures x fun phase => phase.isBetweenRounds = true) :
    Spec anyReport P x fun phase m _ => AfterStream calls record phase m := by
  intro m mon phase out m' _ hrun
  exact ⟨(), watch_of_ignored fun _ _ => rfl, AfterStream.of_between (h m phase out m' hrun) m'⟩

theorem spec_of_frame {α : Type} {x : Emitter ConversationManager Report α}
    (h : Leaves callRecord Report.IsUpdate x) :
    Spec anyReport (fun m _ => callRecord m = record) x fun _ m _ => callRecord m = record :=
  h.keeps (fun _ _ _ hsame hm => hsame.trans hm) fun _ _ _ => rfl

variable {calls : List ToolCall} {record : List (String × Value) × List ApiMessage} (t : TurnState)

theorem refuseCall_after (e : ToolRound) (call : ToolCall) (clarification : String)
    (hrest : ∀ next ∈ e.remaining, next ∈ calls) :
    Spec anyReport (fun m _ => callRecord m = record) (do
        let e ← refuseCall env e call clarification
        pure (Phase.executing t e))
      fun phase m _ => AfterStream calls record phase m := by
  refine Spec.bind ((spec_of_frame ((frame_callRecord env).showsAll.refuseCall e call clarification)).ensures
    (refuseCall_remaining env e call clarification)) fun e' => Spec.pure fun m _ h => ⟨h.2, ?_⟩
  rw [h.1]
  exact hrest

theorem takeCall_after (e : ToolRound) (call : ToolCall)
    (hcalls : ∀ next ∈ call :: e.remaining, next ∈ calls) :
    Spec anyReport (fun m _ => callRecord m = record) (takeCall env t e call)
      fun phase m _ => AfterStream calls record phase m := by
  have hframe := (frame_callRecord env).showsAll
  unfold takeCall
  split
  · exact refuseCall_after env t e call _ fun next h => hcalls next (List.mem_cons_of_mem _ h)
  split
  · refine Spec.bind (spec_of_frame (hframe.setToolCallStatus _ _)) fun _ => ?_
    exact Spec.bind (spec_of_frame (hframe.emit _)) fun _ =>
      Spec.pure fun _ _ h => ⟨h, hcalls⟩
  · exact Spec.bind (spec_of_frame (hframe.setToolCallStatus _ _)) fun _ =>
      Spec.pure fun _ _ h => ⟨h, hcalls⟩

theorem answerApproval_after (e : ToolRound) (call : ToolCall) (approved : Bool)
    (hcalls : ∀ next ∈ call :: e.remaining, next ∈ calls) :
    Spec anyReport (fun m _ => callRecord m = record) (answerApproval env t e call approved)
      fun phase m _ => AfterStream calls record phase m := by
  cases approved with
  | true =>
    exact Spec.bind (spec_of_frame ((frame_callRecord env).showsAll.setToolCallStatus _ _)) fun _ =>
      Spec.pure fun _ _ h => ⟨h, hcalls⟩
  | false => exact refuseCall_after env t e call _ fun next h => hcalls next (List.mem_cons_of_mem _ h)

theorem recordResult_after (e : ToolRound) (call : ToolCall)
    (result : Except String String) (hrest : ∀ next ∈ e.remaining, next ∈ calls) :
    Spec anyReport (fun m _ => callRecord m = record) (recordResult env t e call result)
      fun next m _ => callRecord m = record ∧ ∀ call ∈ next.2.remaining, call ∈ calls := by
  have hframe := (frame_callRecord env).showsAll
  have hrecord : Spec anyReport (fun m _ => callRecord m = record) (recordResult env t e call result)
      fun _ m _ => callRecord m = record := by
    refine Spec.bind (spec_of_frame (hframe.setToolCallStatus _ _)) fun _ => ?_
    refine Spec.bind (spec_of_frame (hframe.pushToolResultBlock _ _ _)) fun _ => ?_
    refine Spec.bind (R := fun _ m _ => callRecord m = record) (Spec.read_any fun m => ?_) fun _ =>
      Spec.pure fun _ _ h => h
    refine Spec.bind (Spec.forSome fun _ _ => Spec.emit fun _ _ h => ⟨(), rfl, h⟩) fun _ => ?_
    exact Spec.bind (R := fun _ m _ => callRecord m = record) (Spec.modify fun _ _ h => h) fun _ =>
      Spec.pure fun _ _ h => h
  refine (hrecord.ensures (recordResult_remaining env t e call result)).conseq (fun _ _ h => h)
    fun next m _ h => ⟨h.2, ?_⟩
  rw [h.1]
  exact hrest

/-- A step that opens no stream keeps what the end of the last one has left. -/
theorem advance_after (phase : Phase) (event : Event) : event ≠ .streamOpened →
    Spec anyReport (fun m _ => AfterStream calls record phase m) (advance env phase event)
      fun phase m _ => AfterStream calls record phase m := by
  refine advance_cases env
    (M := fun phase event x => event ≠ .streamOpened → Spec anyReport
      (fun m _ => AfterStream calls record phase m) x fun phase m _ => AfterStream calls record phase m)
    ?crash ?send ?clear ?condensing ?compacting ?roundTop ?opened ?failed ?signal ?streamError ?ended
    ?roundEnd ?callsDone ?call ?approval ?tool ?tools ?recorded ?record ?cancel phase event
  case crash => exact fun _ _ _ => Spec.crash
  case send => exact fun _ _ _ _ _ => spec_of_between (sendMessage_between env _ _ _ _)
  case clear => exact fun _ => spec_of_between (Ensures.last fun _ => Ensures.last fun _ => Ensures.pure rfl)
  case condensing => exact fun t _ => spec_of_between (Ensures.last fun _ => Ensures.last fun _ => Ensures.pure rfl)
  case compacting => exact fun t _ => spec_of_between (compactProactively_between env t)
  case roundTop => exact fun t _ => spec_of_between (startRound_between env t)
  case opened => exact fun t h => absurd rfl h
  case failed => exact fun t message _ => spec_of_between (streamFailed_between env t message)
  case signal =>
    intro t r signal _ m mon phase out m' h
    exact h.elim
  case streamError => exact fun t r message _ => spec_of_between (returnTurn_between env _ _ _)
  case ended =>
    intro t r _ m mon phase out m' h
    exact h.elim
  case roundEnd =>
    intro t r _ m mon phase out m' h
    exact h.elim
  case callsDone => exact fun t e _ _ => spec_of_between (finishCalls_between t e)
  case call =>
    intro t e call remaining hremaining _
    refine Spec.conseq (P := fun m _ => (∀ next ∈ call :: remaining, next ∈ calls) ∧
      callRecord m = record) (Spec.of_pure fun hcalls => takeCall_after env t { e with remaining } call
        hcalls) (fun m _ h => ?_) fun _ _ _ h => h
    obtain ⟨hrecord, hcalls⟩ := h
    rw [hremaining] at hcalls
    exact ⟨hcalls, hrecord⟩
  case approval =>
    intro t e call approved _
    exact Spec.conseq (Spec.of_pure fun hcalls => answerApproval_after env t e call approved hcalls)
      (fun m _ h => And.symm h) fun _ _ _ h => h
  case tool =>
    intro t e call result _
    refine Spec.conseq (P := fun m _ => (∀ next ∈ call :: e.remaining, next ∈ calls) ∧
      callRecord m = record) (Spec.of_pure fun hcalls => ?_) (fun m _ h => And.symm h) fun _ _ _ h => h
    exact Spec.bind (recordResult_after env t e call result
      fun next h => hcalls next (List.mem_cons_of_mem _ h)) fun _ => Spec.pure fun _ _ h => h
  case tools => exact fun t e results _ _ => Spec.pure fun _ _ h => h
  case recorded => exact fun t e results _ _ => spec_of_between (finishCalls_between t e)
  case record =>
    intro t e call remaining result results hremaining _
    refine Spec.conseq (P := fun m _ => (∀ next ∈ call :: remaining, next ∈ calls) ∧
      callRecord m = record) (Spec.of_pure fun hcalls => ?_) (fun m _ h => ?_) fun _ _ _ h => h
    · exact Spec.bind (recordResult_after env t { e with remaining } call result
        fun next h => hcalls next (List.mem_cons_of_mem _ h)) fun _ => Spec.pure fun _ _ h => h
    · obtain ⟨hrecord, hcalls⟩ := h
      rw [hremaining] at hcalls
      exact ⟨hcalls, hrecord⟩
  case cancel =>
    exact fun _ _ _ => spec_of_between (Ensures.last fun _ => Ensures.pure rfl)

theorem startCalls_after (blocks : List ContentBlock) (useStructuredRound : Bool) :
    Spec anyReport (fun m _ => callRecord m = record) (startCalls env t blocks useStructuredRound)
      fun phase m _ => AfterStream (blocks.filterMap ContentBlock.toolCall?) record phase m := by
  unfold startCalls
  split
  · refine Spec.bind (Spec.forEach fun call _ => ?_) fun _ => Spec.pure fun _ _ h => ⟨h, fun _ h => h⟩
    exact spec_of_frame ((frame_callRecord env).showsAll.setToolCallStatus _ _)
  · exact Spec.pure fun _ _ h => ⟨h, fun _ h => h⟩

theorem endRound_after (r : RoundState) (inputs : List (String × Value)) (messages : List ApiMessage) :
    Spec anyReport (fun m _ => callRecord m = (inputs, messages)) (endRound env t r)
      fun phase m _ => AfterStream (r.openCalls.filterMap ContentBlock.toolCall?)
        (inputs, messages ++
          [assistantMessage env r.openCalls r.assistantText (r.useStructuredRound env)]) phase m := by
  unfold endRound
  dsimp only
  split
  · exact spec_of_between (returnGuarded_between env _)
  · exact spec_of_between (Ensures.last fun _ => Ensures.last fun _ => Ensures.pure rfl)
  · have hpush : Spec anyReport (fun m _ => callRecord m = (inputs, messages))
        (pushMessage (assistantMessage env r.openCalls r.assistantText (r.useStructuredRound env)))
        fun _ m _ => callRecord m = (inputs, messages ++
          [assistantMessage env r.openCalls r.assistantText (r.useStructuredRound env)]) := by
      refine Spec.modify fun m _ h => ?_
      obtain ⟨hinputs, hmessages⟩ := Prod.ext_iff.mp h
      exact Prod.ext hinputs (congrArg (· ++ [_]) hmessages)
    refine Spec.bind hpush fun _ => ?_
    split
    · exact spec_of_between (endWithoutCalls_between env _ _)
    · exact startCalls_after env _ _ _

/-! ### Runs -/

def Phase.executedCalls : Phase → List ToolCall
  | .running _ _ call => [call]
  | .parallel _ e => e.remaining
  | _ => []

theorem AfterStream.executed {phase : Phase} (h : AfterStream calls record phase m)
    {call : ToolCall} (hcall : call ∈ phase.executedCalls) :
    callRecord m = record ∧ call ∈ calls := by
  cases phase with
  | running t e next =>
    obtain rfl := List.mem_singleton.mp hcall
    exact ⟨h.1, h.2 call List.mem_cons_self⟩
  | parallel t e => exact ⟨h.1, h.2 call hcall⟩
  | _ => cases hcall

theorem events_after {events : List Event} (hround : .streamOpened ∉ events)
    (h : AfterStream calls record c.phase c.manager) {reports : List Report}
    (hrun : run env events c = some ((), reports, c')) :
    AfterStream calls record c'.phase c'.manager := by
  have hspec : Spec anyReport (fun (c : Machine) _ => AfterStream calls record c.phase c.manager)
      (run env events) fun _ c _ => AfterStream calls record c.phase c.manager := by
    refine Spec.forEach fun event hmem c mon a out c' hc hstep => ?_
    have hne : event ≠ .streamOpened := fun heq => hround (heq ▸ hmem)
    exact step_of_advance env (P := fun phase m _ => AfterStream calls record phase m)
      (advance_after env c.phase event hne) hc hstep
  obtain ⟨-, -, hafter⟩ := hspec c () () reports c' h hrun
  exact hafter

theorem afterStream_run {t : TurnState} {r : RoundState} (hphase : c.phase = .streaming t r)
    {after : List Event} (hround : .streamOpened ∉ after) {reports : List Report}
    (hrun : run env (.streamEnded :: after) c = some ((), reports, c')) {call : ToolCall}
    (hcall : call ∈ c'.phase.executedCalls) :
    AfterStream (r.openCalls.filterMap ContentBlock.toolCall?)
      (callInputs c.manager, c.manager.apiMessages ++
        [assistantMessage env r.openCalls r.assistantText (r.useStructuredRound env)])
      c'.phase c'.manager := by
  obtain ⟨⟨⟩, out₁, c₁, out₂, hended, hrest, -⟩ := bind_eq_some hrun
  have hadvance := advance_of_step env hended
  rw [hphase] at hadvance
  obtain ⟨hphase₁, -, hmanager⟩ := by simpa [advance] using hadvance
  cases after with
  | nil =>
    obtain ⟨-, rfl⟩ := by simpa [forEach] using hrest
    rw [← hphase₁] at hcall
    cases hcall
  | cons event after =>
    obtain ⟨⟨⟩, out₃, c₂, out₄, hround', hafter, -⟩ := bind_eq_some hrest
    have hadvance' := advance_of_step env hround'
    rw [← hphase₁, ← hmanager] at hadvance'
    have htick : event = .tick := by
      cases event <;> first | rfl | cases hadvance'
    subst htick
    obtain ⟨-, -, hstart⟩ := endRound_after env t r (callInputs c.manager) c.manager.apiMessages
      c.manager () _ _ _ rfl hadvance'
    exact events_after env (fun hmem => hround (List.mem_cons_of_mem _ hmem)) hstart hafter

/-- **Document and execution**: while a call of a round is executed, its input is one of the blocks of
the message in the history, and the task document records the same input for it exactly when the
input with which the turn has started a call of this id first is the last one that the stream of the
round has reported. -/
theorem executed_input_iff (past : List Event) (pastReports : List Report) (c : Machine)
    (hpast : run env past {} = some ((), pastReports, c)) (t : TurnState)
    (hphase : c.phase = .streaming t {}) (signals : List RuntimeSignal) (after : List Event)
    (hround : .streamOpened ∉ after) (reports : List Report) (c' : Machine)
    (hrun : run env (signals.map Event.signal ++ .streamEnded :: after) c = some ((), reports, c'))
    (call : ToolCall) (hcall : call ∈ c'.phase.executedCalls) :
    (recordedInput call.id c'.manager = some call.input ↔
      find? call.id (callInputs c.manager ++ signals.filterMap startedCall?) =
        lastReported signals call.id) ∧
    ∃ blocks text useStructuredRound, .toolUse call.id call.name call.input ∈ blocks ∧
      assistantMessage env blocks text useStructuredRound ∈ c'.manager.apiMessages := by
  have hopen : c.manager.activePulse.isSome = true := by
    rcases callOpen_run env hpast with hidle | ⟨begun, active, hactive, -⟩
    · rw [hidle] at hphase
      cases hphase
    · rw [hactive]
      rfl
  have hstart : Receiving (callInputs c.manager) (fun _ => none) c := by
    refine ⟨hopen, rfl, t, {}, hphase, ⟨fun i block h => ?_, fun id i h => ?_⟩, fun id => rfl⟩
    all_goals cases h
  rw [run, forEach_append] at hrun
  obtain ⟨⟨⟩, out₁, c₁, out₂, hsignals, hafter, -⟩ := bind_eq_some hrun
  obtain ⟨-, hinputs, t₁, r₁, hphase₁, hplaced, hreported⟩ :=
    signals_receiving env signals hstart hsignals
  obtain ⟨hrecord, hmem⟩ := (afterStream_run env hphase₁ hround hafter hcall).executed hcall
  obtain ⟨hinputs', hmessages⟩ := Prod.ext_iff.mp hrecord
  have hblock : ContentBlock.toolUse call.id call.name call.input ∈ r₁.openCalls := by
    obtain ⟨block, hblock, heq⟩ := List.mem_filterMap.mp hmem
    cases block with
    | toolUse id name input =>
      obtain rfl := Option.some.inj heq
      exact hblock
    | _ => cases heq
  have hlast : lastReported signals call.id = some call.input :=
    (hreported call.id).symm.trans (input?_of_mem hplaced (List.mem_filter.mp hblock).1)
  refine ⟨?_, r₁.openCalls, r₁.assistantText, r₁.useStructuredRound env, hblock, ?_⟩
  · rw [recordedInput_eq, hlast, ← hinputs]
    exact iff_of_eq (congrArg (fun l => find? call.id l = some call.input) hinputs')
  · rw [show c'.manager.apiMessages = _ from hmessages]
    exact List.mem_append_right _ (List.mem_singleton_self _)

def openedStream : List Event := sampleRequest "read a" ++ [.streamOpened]

def approvedCall : List Event := [.tick, .tick, .approvalAnswered true]

/-- A call that is started with its arguments. -/
theorem executed_input_iff_sample :
    ∃ pastReports c reports c' call, run sampleEnvironment openedStream {} =
        some ((), pastReports, c) ∧
      run sampleEnvironment ([RuntimeSignal.toolCallStarted "t1" "read_file" sampleInput .pending ""].map
        Event.signal ++ .streamEnded :: approvedCall) c = some ((), reports, c') ∧
      call ∈ c'.phase.executedCalls ∧ recordedInput call.id c'.manager = some call.input := by
  have h : ((run sampleEnvironment openedStream {}).any fun result =>
      (match result.2.2.phase with
        | .streaming _ r => r == {}
        | _ => false) && callInputs result.2.2.manager == [] &&
      (run sampleEnvironment
        ([RuntimeSignal.toolCallStarted "t1" "read_file" sampleInput .pending ""].map Event.signal ++
          .streamEnded :: approvedCall) result.2.2).any fun result' =>
        result'.2.2.phase.executedCalls == [⟨"t1", "read_file", sampleInput⟩]) = true := by
    decide +kernel
  obtain ⟨⟨⟨⟩, pastReports, c⟩, hpast, hand⟩ := (Option.any_eq_true _ _).mp h
  rw [Bool.and_eq_true, Bool.and_eq_true, beq_iff_eq] at hand
  obtain ⟨⟨hopened, hcalls⟩, hrest⟩ := hand
  obtain ⟨⟨⟨⟩, reports, c'⟩, hrun, hexecuted⟩ := (Option.any_eq_true _ _).mp hrest
  have hmem : ⟨"t1", "read_file", sampleInput⟩ ∈ c'.phase.executedCalls := by
    rw [beq_iff_eq.mp hexecuted]
    exact List.mem_singleton_self _
  cases hphase : c.phase with
  | streaming t r =>
    rw [hphase] at hopened
    obtain rfl := beq_iff_eq.mp hopened
    refine ⟨pastReports, c, reports, c', _, hpast, hrun, hmem, ?_⟩
    refine (executed_input_iff sampleEnvironment openedStream pastReports c hpast t hphase
      [.toolCallStarted "t1" "read_file" sampleInput .pending ""] approvedCall (by decide) reports c' hrun
      ⟨"t1", "read_file", sampleInput⟩ hmem).1.mpr ?_
    rw [show callInputs c.manager = [] from hcalls]
    decide
  | _ => rw [hphase] at hopened; cases hopened

/-- The stream reports the arguments of a call behind its start: it is executed with them, and recorded
without. -/
theorem streamed_arguments_not_recorded :
    ∃ reports c call, run sampleEnvironment (openedStream ++
        [.signal (.toolCallStarted "t1" "read_file" (.object []) .pending ""),
          .signal (.toolCallArgumentsDelta "t1" none "" .pending (some sampleInput) false)] ++
        .streamEnded :: approvedCall) {} = some ((), reports, c) ∧
      call ∈ c.phase.executedCalls ∧ recordedInput call.id c.manager ≠ some call.input := by
  have h : ((run sampleEnvironment (openedStream ++
        [.signal (.toolCallStarted "t1" "read_file" (.object []) .pending ""),
          .signal (.toolCallArgumentsDelta "t1" none "" .pending (some sampleInput) false)] ++
        .streamEnded :: approvedCall) {}).any fun result =>
      result.2.2.phase.executedCalls.any fun call =>
        decide (recordedInput call.id result.2.2.manager ≠ some call.input)) = true := by
    decide +kernel
  obtain ⟨⟨⟨⟩, reports, c⟩, hrun, hany⟩ := (Option.any_eq_true _ _).mp h
  obtain ⟨call, hmem, hdiffers⟩ := List.any_eq_true.mp hany
  exact ⟨reports, c, call, hrun, hmem, of_decide_eq_true hdiffers⟩

end Vexcoder.Conversation

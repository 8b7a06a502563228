import Vexcoder.Conversation.SendMessage
import Vexcoder.Lib.Runs

/-!
# What the streaming operations leave alone

The operations that work on the running turn leave the messages, the read-file cache and the list of
turns as they are, and all they show are updates (`Quiet`).  Only the steps of `send_message` itself
touch these.
-/

namespace Vexcoder.Conversation

open Base Lib Lib.Assoc Lib.Emitter Vexcoder.Runtime Vexcoder.Task

/-- The completed turns of a task document, and the input of the running one. -/
def turnsOf (doc : TaskDocument) : List TurnDocument × Option String :=
  (doc.completedTurns, doc.activePulse.map fun active => active.input)

/-- What the quiet operations leave alone. -/
structure Kept where
  messages : List ApiMessage
  cache : ReadFileRollupCache
  turns : Option (List TurnDocument × Option String)

def ConversationManager.kept (m : ConversationManager) : Kept :=
  { messages := m.apiMessages, cache := m.readFileHistoryCache, turns := m.taskDoc.map turnsOf }

def Report.IsUpdate (report : Report) : Prop := ∃ u, report = .update u

/-- The operation keeps messages, cache and turns, and shows nothing but updates. -/
def Quiet {α : Type} (x : Emitter ConversationManager Report α) : Prop :=
  Leaves ConversationManager.kept Report.IsUpdate x

/-- What is quiet keeps an invariant of messages, cache and turns, for a monitor of other reports. -/
theorem Quiet.spec {μ α : Type} {δ : μ → Report → Option μ} {I : ConversationManager → μ → Prop}
    {x : Emitter ConversationManager Report α} (h : Quiet x) (hδ : ∀ mon u, δ mon (.update u) = some mon)
    (hI : ∀ m m' mon, m'.kept = m.kept → I m mon → I m' mon) : Spec δ I x fun _ => I := by
  refine Leaves.keeps h (fun m m' mon hkept hi => hI m m' mon hkept hi) fun mon o ho => ?_
  obtain ⟨u, rfl⟩ := ho
  exact hδ mon u

variable {m : ConversationManager} {c : Machine} {event : Event} {out : List Report}

theorem activeInput_of_turns {m' : ConversationManager} (h : m'.taskDoc.map turnsOf = m.taskDoc.map turnsOf) :
    m'.activePulse.map (·.input) = m.activePulse.map (·.input) := by
  unfold ConversationManager.activePulse
  cases hdoc : m.taskDoc <;> cases hdoc' : m'.taskDoc <;> simp_all [turnsOf]

theorem isOpen_of_kept {m' : ConversationManager} (h : m'.kept = m.kept) :
    m'.activePulse.isSome = m.activePulse.isSome := by
  have hinput := activeInput_of_turns (congrArg Kept.turns h)
  rw [← Option.isSome_map (f := fun active : ActiveTurnDocument => active.input), hinput, Option.isSome_map]

/-! ### Signals keep the turns -/

theorem turnsOf_applyToActive (now : ℕ) (doc : TaskDocument) (active : ActiveTurnDocument)
    (hactive : doc.activePulse = some active) (signal : RuntimeSignal) :
    turnsOf (doc.applyToActive now active signal).1 = turnsOf doc := by
  have hself : turnsOf doc = (doc.completedTurns, some active.input) := by rw [turnsOf, hactive]; rfl
  rw [hself]
  cases signal with
  | transcriptBlockStart index block => cases block <;> first | rfl | exact hself
  | approvalRequest capability scope toolName | approvalResolved capability scope approved =>
    simp only [TaskDocument.applyToActive]
    split
    · rfl
    · exact hself
  | _ => first | rfl | exact hself

theorem turnsOf_applyToTask (signal : RuntimeSignal) (doc : TaskDocument) (summary : TaskMutationSummary) :
    turnsOf (TaskDocument.applyToTask signal doc summary).1 = turnsOf doc := by
  cases signal with
  | error code message recoverable => cases recoverable <;> rfl
  | _ => rfl

theorem turnsOf_applyRuntimeSignal (now now' : ℕ) (doc : TaskDocument) (signal : RuntimeSignal) :
    turnsOf (doc.applyRuntimeSignal now now' signal).1 = turnsOf doc := by
  cases hactive : doc.activePulse with
  | none =>
    simp only [TaskDocument.applyRuntimeSignal, hactive]
    exact turnsOf_applyToTask signal doc {}
  | some active =>
    have hkept := turnsOf_applyToActive now doc active hactive signal
    simp only [TaskDocument.applyRuntimeSignal, hactive]
    generalize doc.applyToActive now active signal = r at hkept
    obtain ⟨doc', summary, returned⟩ := r
    cases returned with
    | true => exact hkept
    | false => exact (turnsOf_applyToTask signal doc' summary).trans hkept

/-! ### The operations -/

variable (env : Environment)

theorem quiet_emitStreamUpdate (u : ConversationStreamUpdate) : Quiet (emitStreamUpdate u) :=
  Leaves.emit ⟨u, rfl⟩

theorem readClock_run (m : ConversationManager) :
    readClock env m = some (env.clock m.clockReads, [], { m with clockReads := m.clockReads + 1 }) := rfl

theorem applyDocDelta_run_none (h : m.taskDoc = none) (signal : RuntimeSignal) :
    applyDocDelta env signal m = some ((), [], m) := by
  unfold applyDocDelta
  rw [bind_of_some (read_run m), prepend_nil]
  simp only [h, pure_run]

theorem applyDocDelta_run_some {doc : TaskDocument} (h : m.taskDoc = some doc) (signal : RuntimeSignal) :
    applyDocDelta env signal m = some ((), [],
      { m with
        taskDoc := some (doc.applyRuntimeSignal (env.clock m.clockReads)
          (env.clock (m.clockReads + 1)) signal).1
        clockReads := m.clockReads + 2 }) := by
  unfold applyDocDelta
  rw [bind_of_some (read_run m)]
  simp only [h]
  rfl

theorem quiet_applyDocDelta (signal : RuntimeSignal) : Quiet (applyDocDelta env signal) := by
  intro m a out m' hrun
  cases h : m.taskDoc with
  | none =>
    rw [applyDocDelta_run_none env h] at hrun
    obtain ⟨rfl, rfl⟩ := by simpa using hrun
    exact ⟨rfl, fun _ ho => absurd ho List.not_mem_nil⟩
  | some doc =>
    rw [applyDocDelta_run_some env h] at hrun
    obtain ⟨rfl, rfl⟩ := by simpa using hrun
    refine ⟨?_, fun _ ho => absurd ho List.not_mem_nil⟩
    simp only [ConversationManager.kept, h, Option.map_some, turnsOf_applyRuntimeSignal]

/-! ### Frames of the operations -/

def startedCall? : RuntimeSignal → Option (String × Value)
  | .toolCallStarted toolCallId _ arguments _ _ => some (toolCallId, arguments)
  | _ => none

/-- The part of the manager is left alone by the signals that start no call, and by what works on
neither messages, cache, task document nor the tokens of the last turn. -/
structure Frame {κ : Type} (proj : ConversationManager → κ) : Prop where
  doc : ∀ signal, startedCall? signal = none → Leaves proj Report.IsUpdate (applyDocDelta env signal)
  fields : ∀ m m' : ConversationManager, m'.apiMessages = m.apiMessages →
    m'.readFileHistoryCache = m.readFileHistoryCache → m'.taskDoc = m.taskDoc →
    m'.lastTurnTokens = m.lastTurnTokens → proj m' = proj m

/-- A report that shows no delta of a block, no result and no error of a stream. -/
def Report.Calm : Report → Prop
  | .update (.blockDelta ..) => False
  | .update (.blockStart _ (.toolResult ..)) => False
  | .update (.streamError _) => False
  | _ => True

/-- A property of computations that the operations on the running turn have when their parts have it. -/
structure Walk (C : (α : Type) → Emitter ConversationManager Report α → Prop) : Prop
    extends Closed C where
  doc : ∀ signal, startedCall? signal = none → C Unit (applyDocDelta env signal)
  modify : ∀ f : ConversationManager → ConversationManager, (∀ m, (f m).apiMessages = m.apiMessages ∧
    (f m).readFileHistoryCache = m.readFileHistoryCache ∧ (f m).taskDoc = m.taskDoc ∧
      (f m).lastTurnTokens = m.lastTurnTokens) → C Unit (modify f)
  calm : ∀ u, Report.Calm (.update u) → C Unit (emitStreamUpdate u)

structure ShowsAll (C : (α : Type) → Emitter ConversationManager Report α → Prop) : Prop
    extends Walk env C where
  emit : ∀ u, C Unit (emitStreamUpdate u)

structure ChangesAll (C : (α : Type) → Emitter ConversationManager Report α → Prop) : Prop
    extends Walk env C where
  signal : ∀ signal, C Unit (applyDocDelta env signal)
  change : ∀ f : ConversationManager → ConversationManager, C Unit (Emitter.modify f)
  report : ∀ report, report.Calm → C Unit (Emitter.emit report)

variable {env}

theorem Frame.showsAll {κ : Type} {proj : ConversationManager → κ} (h : Frame env proj) :
    ShowsAll env fun α => Leaves (α := α) proj Report.IsUpdate where
  toClosed := closed_leaves proj Report.IsUpdate
  doc := h.doc
  modify f hf := Leaves.modify fun m => h.fields m (f m) (hf m).1 (hf m).2.1 (hf m).2.2.1 (hf m).2.2.2
  calm u _ := Leaves.emit ⟨u, rfl⟩
  emit u := Leaves.emit ⟨u, rfl⟩

variable {C : (α : Type) → Emitter ConversationManager Report α → Prop}

namespace Walk

variable (h : Walk env C)

include h

theorem readClock : C _ (readClock env) :=
  h.bind h.read fun _ => h.bind (h.modify _ fun _ => ⟨rfl, rfl, rfl, rfl⟩) fun _ => h.pure _

theorem padBlock (padIndex : ℕ) : C _ (padBlock env padIndex) :=
  h.bind (h.doc _ rfl) fun _ => h.bind (h.modify _ fun _ => ⟨rfl, rfl, rfl, rfl⟩) fun _ => h.calm _ trivial

theorem emitStreamBlockStartUpdate (index : ℕ) {block : StreamBlock}
    (hshow : C _ (emitStreamUpdate (.blockStart index block))) :
    C _ (emitStreamBlockStartUpdate env index block) := by
  refine h.bind h.read fun m => ?_
  refine h.bind (h.onlyIf (h.forEach fun _ => h.padBlock _)) fun _ => ?_
  exact h.bind (h.modify _ fun _ => ⟨rfl, rfl, rfl, rfl⟩) fun _ => hshow

theorem recordToolCallStartedAt (toolCallId : String) (startedAt : ℤ) :
    C _ (recordToolCallStartedAt toolCallId startedAt) :=
  h.modify _ fun _ => ⟨rfl, rfl, rfl, rfl⟩

theorem takeToolCallTiming (toolCallId : String) (completedAt : ℕ) :
    C _ (takeToolCallTiming env toolCallId completedAt) := by
  refine h.bind h.read fun m => ?_
  cases find? toolCallId m.toolCallStartedAt with
  | none => exact h.pure _
  | some startedAt => exact h.bind (h.modify _ fun _ => ⟨rfl, rfl, rfl, rfl⟩) fun _ => h.pure _

theorem setToolCallStatus (toolCallId : String) (status : ToolStatus) :
    C _ (setToolCallStatus env toolCallId status) := by
  refine h.bind h.read fun m => ?_
  cases firstCall? toolCallId 0 m.activeEntries with
  | none => exact h.pure _
  | some call => exact h.bind (h.doc _ rfl) fun _ => h.calm _ trivial

theorem toolResultSignal (toolCallId : String) (toolName : Option String) (output : String)
    (isError : Bool) (completedAt : ℕ) :
    C _ (toolResultSignal env toolCallId toolName output isError completedAt) := by
  refine h.bind (h.takeToolCallTiming _ _) fun timing => ?_
  cases isError <;> exact h.pure _

omit h in
theorem toolResultSignal_starts (toolCallId : String) (toolName : Option String) (output : String)
    (isError : Bool) (completedAt : ℕ) :
    Ensures (Conversation.toolResultSignal env toolCallId toolName output isError completedAt)
      fun signal => startedCall? signal = none := by
  refine Ensures.last fun timing => ?_
  cases isError <;> exact Ensures.pure rfl

theorem promoteThinkingBlocksToFinalText : C _ (promoteThinkingBlocksToFinalText env) := by
  refine h.bind h.read fun m => h.forEach fun _ => ?_
  exact h.bind (h.doc _ rfl) fun _ => h.calm _ trivial

theorem takePendingBlock (r : RoundState) (toolCallId toolName : String) (arguments : Value) :
    C _ (takePendingBlock env r toolCallId toolName arguments) := by
  unfold Conversation.takePendingBlock
  cases r.pendingToolBlockIndices with
  | nil => exact h.pure _
  | cons index pending =>
    exact h.bind (h.emitStreamBlockStartUpdate _ (h.calm _ trivial)) fun _ => h.pure _

end Walk

namespace ShowsAll

variable (h : ShowsAll env C)

include h

theorem upsertTurnBlock (index : ℕ) {block : StreamBlock}
    (hcall : ∀ id name input status, block ≠ .toolCall id name input status) :
    C _ (upsertTurnBlock env index block) := by
  refine h.bind ?_ fun _ => h.emitStreamBlockStartUpdate _ (h.emit _)
  cases block with
  | thinking content collapsed | finalText content => exact h.doc _ rfl
  | toolCall id name input status => exact absurd rfl (hcall id name input status)
  | toolResult toolCallId output isError => exact h.pure _

theorem appendTextDelta (index : ℕ) (text : String) : C _ (appendTextDelta env index text) := by
  refine h.bind h.read fun m => ?_
  cases lastBlock? index m.activeEntries with
  | none => exact h.bind (h.upsertTurnBlock _ nofun) fun _ => h.pure _
  | some block =>
    dsimp only
    split
    · exact h.pure _
    · exact h.bind (h.doc _ rfl) fun _ => h.bind (h.emit _) fun _ => h.pure _

theorem pushToolResultBlock (toolCallId output : String) (isError : Bool) :
    C _ (pushToolResultBlock env toolCallId output isError) := by
  refine h.bind h.read fun m => h.bind h.readClock fun completedAt => ?_
  refine h.bind_of (h.toolResultSignal _ _ _ _ _) (Walk.toolResultSignal_starts _ _ _ _ _)
    fun signal hsignal => ?_
  refine h.bind (h.doc _ hsignal) fun _ => h.bind h.read fun m' => ?_
  exact h.bind (h.emit _) fun _ => h.emit _

theorem receiveBlockStart (r : RoundState) (index : ℕ) (block : StreamBlock) :
    C _ (receiveBlockStart env r index block) := by
  cases block with
  | toolCall id name input status => exact h.pure _
  | toolResult toolCallId output isError =>
    exact h.bind (h.emitStreamBlockStartUpdate _ (h.emit _)) fun _ => h.pure _
  | _ => exact h.bind (h.upsertTurnBlock _ nofun) fun _ => h.pure _

theorem receiveBlockDelta (r : RoundState) (index : ℕ) (delta : String) :
    C _ (receiveBlockDelta env r index delta) := by
  unfold Conversation.receiveBlockDelta
  split
  · exact h.pure _
  · exact h.bind (h.appendTextDelta _ _) fun _ => h.pure _

theorem receiveToolCallArgumentsDelta (r : RoundState) (toolCallId : String) (toolName : Option String)
    (delta : String) (status : ToolStatus) (arguments : Option Value) (invalidJson : Bool) :
    C _ (receiveToolCallArgumentsDelta env r toolCallId toolName delta status arguments invalidJson) := by
  refine h.bind (h.forSome fun _ => h.emit _) fun _ => ?_
  refine h.bind (h.forSome fun _ => h.emit _) fun _ => ?_
  exact h.bind (h.doc _ rfl) fun _ => h.pure _

theorem receiveSignal (t : TurnState) (r : RoundState) {signal : RuntimeSignal}
    (hsignal : startedCall? signal = none) :
    C _ (receiveSignal env t r signal) := by
  cases signal with
  | toolCallStarted => cases hsignal
  | pulseStart input | usageUpdated usage => exact h.pure _
  | transcriptLine line =>
    exact h.bind (h.doc _ rfl) fun _ => h.bind (h.emit _) fun _ => h.pure _
  | transcriptBlockStart index block =>
    exact h.bind (h.receiveBlockStart _ _ _) fun _ => h.pure _
  | transcriptBlockDelta index delta =>
    exact h.bind (h.receiveBlockDelta _ _ _) fun _ => h.pure _
  | transcriptBlockComplete index =>
    exact h.bind (h.onlyIf (h.doc _ rfl)) fun _ =>
      h.bind (h.emit _) fun _ => h.pure _
  | toolCallArgumentsDelta toolCallId toolName delta status arguments invalidJson =>
    exact h.bind (h.receiveToolCallArgumentsDelta _ _ _ _ _ _ _) fun _ => h.pure _
  | toolCallCompleted | toolCallFailed =>
    exact h.bind (h.doc _ rfl) fun _ =>
      h.bind (h.pushToolResultBlock _ _ _) fun _ => h.pure _
  | serverMetadata metadata =>
    exact h.bind (h.onlyIf (h.emit _)) fun _ =>
      h.bind (h.doc _ rfl) fun _ => h.pure _
  | pulseEnd status usage changedFiles =>
    simp only [Conversation.receiveSignal]
    split <;> exact h.pure _
  | error code message recoverable => exact h.bind (h.emit _) fun _ => h.pure _
  | _ => exact h.bind (h.doc _ rfl) fun _ => h.pure _

theorem receiveAnySignal (hdoc : ∀ signal, C _ (applyDocDelta env signal))
    (t : TurnState) (r : RoundState) (signal : RuntimeSignal) :
    C _ (Conversation.receiveSignal env t r signal) := by
  cases hsignal : startedCall? signal with
  | none => exact h.receiveSignal t r hsignal
  | some call =>
    cases signal with
    | toolCallStarted toolCallId toolName arguments status startedAt =>
      refine h.bind (h.bind (h.forSome fun _ =>
        h.recordToolCallStartedAt _ _) fun _ => ?_) fun _ => h.pure _
      refine h.bind (h.takePendingBlock _ _ _ _) fun _ => ?_
      exact h.bind (hdoc _) fun _ => h.pure _
    | _ => cases hsignal

theorem refuseCall (e : ToolRound) (call : ToolCall) (clarification : String) :
    C _ (refuseCall env e call clarification) :=
  h.bind (h.setToolCallStatus _ _) fun _ => h.bind (h.pushToolResultBlock _ _ _) fun _ =>
    h.bind (h.emit _) fun _ => h.pure _

end ShowsAll

/-! ### The steps -/

namespace ChangesAll

variable (h : ChangesAll env C)

include h

theorem finishTurnDoc (outcome : PulseOutcome) (tokens : PulseTokens) :
    C _ (finishTurnDoc env outcome tokens) := by
  refine h.bind h.read fun m => ?_
  cases m.taskDoc with
  | none => exact h.change _
  | some doc =>
    exact h.bind h.readClock fun _ => h.bind (h.change _) fun _ => h.change _

theorem emitGuardLine (message : String) : C _ (emitGuardLine message) :=
  h.forSome fun _ => h.calm _ trivial

theorem returnTurn (outcome : PulseOutcome) (tokens : PulseTokens) (result : Except String String) :
    C _ (returnTurn env outcome tokens result) :=
  h.bind (h.finishTurnDoc _ _) fun _ => h.bind (h.report _ trivial) fun _ => h.pure _

theorem returnGuarded (message : String) : C _ (returnGuarded env message) :=
  h.bind (h.emitGuardLine _) fun _ => h.bind h.read fun _ => h.returnTurn _ _ _

theorem condenseOld (t : TurnState) : C _ (condenseOld env t) :=
  h.bind h.read fun _ => h.bind (h.change _) fun _ => h.pure _

theorem compactProactively (t : TurnState) : C _ (compactProactively env t) := by
  refine h.bind h.read fun m => h.bind (h.change _) fun _ => ?_
  cases (proactiveCompaction env m t).2 with
  | none => exact h.pure _
  | some counts => exact h.bind (h.calm _ trivial) fun _ => h.pure _

theorem startRound (t : TurnState) : C _ (startRound env t) := by
  refine h.bind (h.change _) fun _ => h.bind h.read fun m => h.bind (h.change _) fun _ => ?_
  dsimp only
  split
  · exact h.bind (h.emitGuardLine _) fun _ => h.returnTurn _ _ _
  · refine h.bind (h.onlyIf (h.change _)) fun _ => h.bind h.read fun _ => ?_
    exact h.bind (h.report _ trivial) fun _ => h.pure _

theorem streamFailed (t : TurnState) (message : String) : C _ (streamFailed env t message) := by
  unfold Conversation.streamFailed
  split
  · refine h.bind h.read fun m => h.bind (h.change _) fun _ => ?_
    exact h.bind (h.calm _ trivial) fun _ => h.pure _
  · exact h.returnTurn _ _ _

theorem endWithoutCalls (t : TurnState) (text : String) : C _ (endWithoutCalls env t text) := by
  unfold Conversation.endWithoutCalls
  dsimp only
  split
  · exact h.bind (h.change _) fun _ => h.pure _
  split
  · exact h.returnGuarded _
  · refine h.bind h.promoteThinkingBlocksToFinalText fun _ => ?_
    exact h.bind (h.change _) fun _ => h.returnTurn _ _ _

theorem startCalls (t : TurnState) (blocks : List ContentBlock) (useStructuredRound : Bool) :
    C _ (startCalls env t blocks useStructuredRound) := by
  unfold Conversation.startCalls
  split
  · exact h.bind (h.forEach fun call => h.setToolCallStatus _ _) fun _ => h.pure _
  · exact h.pure _

theorem endRound (t : TurnState) (r : RoundState) : C _ (endRound env t r) := by
  unfold Conversation.endRound
  dsimp only
  split
  · exact h.returnGuarded _
  · exact h.bind (h.change _) fun _ => h.bind (h.change _) fun _ => h.pure _
  · refine h.bind (h.change _) fun _ => ?_
    split
    · exact h.endWithoutCalls _ _
    · exact h.startCalls _ _ _

theorem formatForHistory (call : ToolCall) (result : Except String String) :
    C _ (formatForHistory env call result) := by
  refine h.bind h.read fun m => h.bind (h.forSome fun _ => h.report _ trivial) fun _ => ?_
  exact h.bind (h.change _) fun _ => h.pure _

theorem finishCalls (t : TurnState) (e : ToolRound) : C _ (finishCalls t e) :=
  h.bind (h.change _) fun _ => h.pure _

end ChangesAll

variable (env)

/-! ### What is quiet -/

theorem frame_kept : Frame env ConversationManager.kept where
  doc signal _ := quiet_applyDocDelta env signal
  fields m m' hmessages hcache hdoc _ := by
    rw [ConversationManager.kept, ConversationManager.kept, hmessages, hcache, hdoc]

theorem quiet_setToolCallStatus (toolCallId : String) (status : ToolStatus) :
    Quiet (setToolCallStatus env toolCallId status) := (frame_kept env).showsAll.setToolCallStatus _ _

theorem quiet_pushToolResultBlock (toolCallId output : String) (isError : Bool) :
    Quiet (pushToolResultBlock env toolCallId output isError) :=
  (frame_kept env).showsAll.pushToolResultBlock _ _ _

theorem quiet_promoteThinkingBlocksToFinalText : Quiet (promoteThinkingBlocksToFinalText env) :=
  (frame_kept env).showsAll.promoteThinkingBlocksToFinalText

theorem quiet_emitGuardLine (message : String) : Quiet (emitGuardLine message) :=
  Leaves.forSome fun _ => quiet_emitStreamUpdate _

theorem quiet_receiveSignal (t : TurnState) (r : RoundState) (signal : RuntimeSignal) :
    Quiet (receiveSignal env t r signal) :=
  (frame_kept env).showsAll.receiveAnySignal (quiet_applyDocDelta env) t r signal

theorem quiet_refuseCall (e : ToolRound) (call : ToolCall) (clarification : String) :
    Quiet (refuseCall env e call clarification) := (frame_kept env).showsAll.refuseCall _ _ _

theorem quiet_denyCall (e : ToolRound) (call : ToolCall) : Quiet (denyCall env e call) :=
  quiet_refuseCall env e call _

/-! ### Steps -/

theorem step_of_some {phase : Phase} (h : advance env c.phase event c.manager = some (phase, out, m)) :
    step env event c = some ((), out, { manager := m, phase }) := by
  unfold step
  rw [h]

theorem advance_of_step {c' : Machine} (h : step env event c = some ((), out, c')) :
    advance env c.phase event c.manager = some (c'.phase, out, c'.manager) := by
  unfold step at h
  split at h
  · cases h
  · rename_i heq
    obtain ⟨rfl, rfl⟩ := by simpa using h
    exact heq

theorem step_of_advance {μ : Type} {δ : μ → Report → Option μ} {P I : Phase → ConversationManager → μ → Prop}
    {c' : Machine} {m : μ} (h : Spec δ (P c.phase) (advance env c.phase event) I) (hp : P c.phase c.manager m)
    (hstep : step env event c = some ((), out, c')) :
    ∃ m', watch δ m out = some m' ∧ I c'.phase c'.manager m' := by
  exact h c.manager m c'.phase out c'.manager hp (advance_of_step env hstep)

end Vexcoder.Conversation

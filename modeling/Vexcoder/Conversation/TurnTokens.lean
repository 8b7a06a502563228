import Vexcoder.Conversation.LoopRuns

/-!
# The tokens of a turn

What the streams of a call report of their usage (`TurnUsage`), and what is left of it when the call
returns: the tokens recorded in the finished turn, and those in `last_turn_tokens`.  The variable of
the turn follows the reports (`CallTokens`), but only one of the ways out hands it on to both places.
-/

namespace Vexcoder.Conversation

open Base Lib Lib.Emitter Vexcoder.Runtime Vexcoder.Task

/-! ### The usage that the streams report -/

/-- The saturating sum of usages. -/
def sumUsages (usages : List TokenUsageEnvelope) : PulseTokens where
  input := min (usages.map (·.input)).sum u64Max
  output := min (usages.map (·.output)).sum u64Max
  estimated := usages.any (·.estimated)
  cacheCreationInputTokens := min (usages.map (·.cacheCreationInput)).sum u64Max
  cacheReadInputTokens := min (usages.map (·.cacheReadInput)).sum u64Max

/-- The reports of the streams of a call: those that count of the earlier streams, and the updates and
the ends of the last one. -/
structure TurnUsage where
  earlier : List TokenUsageEnvelope := []
  updates : List TokenUsageEnvelope := []
  ends : List TokenUsageEnvelope := []

/-- A stream counts with its updates, or with its end where it has none. -/
def TurnUsage.counted (g : TurnUsage) : List TokenUsageEnvelope :=
  g.earlier ++ if g.updates.isEmpty then g.ends else g.updates

def TurnUsage.note (g : TurnUsage) : Event → TurnUsage
  | .streamOpened => { earlier := g.counted }
  | .signal (.usageUpdated usage) => { g with updates := g.updates ++ [usage] }
  | .signal (.pulseEnd _ usage _) => { g with ends := g.ends ++ usage.toList }
  | _ => g

def TurnUsage.noteAll (g : TurnUsage) (events : List Event) : TurnUsage := events.foldl TurnUsage.note g

def Event.updatesUsage : Event → Bool
  | .signal (.usageUpdated _) => true
  | _ => false

/-- No stream reports an update behind an end with a usage. -/
def UsageInOrder : TurnUsage → List Event → Prop
  | _, [] => True
  | g, event :: events =>
    (event.updatesUsage = true → g.ends = []) ∧ UsageInOrder (g.note event) events

instance decidableUsageInOrder : (g : TurnUsage) → (events : List Event) → Decidable (UsageInOrder g events)
  | _, [] => isTrue trivial
  | g, event :: events =>
    have := decidableUsageInOrder (g.note event) events
    inferInstanceAs (Decidable (_ ∧ _))

theorem accumulate_sumUsages (usages : List TokenUsageEnvelope) (usage : Option TokenUsageEnvelope) :
    accumulateUsageEnvelope (sumUsages usages) usage = sumUsages (usages ++ usage.toList) := by
  cases usage with
  | none =>
    rw [Option.toList_none, List.append_nil]
    rfl
  | some usage =>
    have hsum : ∀ f : TokenUsageEnvelope → ℕ, saturatingAdd (min (usages.map f).sum u64Max) (f usage) =
        min ((usages ++ [usage]).map f).sum u64Max := by
      intro f
      rw [List.map_append, List.sum_append, List.map_singleton, List.sum_singleton, saturatingAdd]
      omega
    have hany : ((usages ++ [usage]).any fun u => u.estimated) =
        ((usages.any fun u => u.estimated) || usage.estimated) := by
      simp
    simp only [accumulateUsageEnvelope, sumUsages, Option.toList_some, hsum, hany]

/-! ### Within a call -/

/-- No tokens are left from before, and the turn is open. -/
def InCall (m : ConversationManager) : Prop := m.lastTurnTokens = {} ∧ m.activePulse.isSome = true

/-- The part of the manager that `InCall` is about. -/
def callPart (m : ConversationManager) : PulseTokens × Bool :=
  (m.lastTurnTokens, m.activePulse.isSome)

theorem InCall.of_callPart {m m' : ConversationManager} (hm : InCall m)
    (h : callPart m' = callPart m) : InCall m' :=
  ⟨(congrArg Prod.fst h).trans hm.1, (congrArg Prod.snd h).trans hm.2⟩

/-- The turn was finished with the first tokens, and the second are left in `last_turn_tokens`. -/
structure SettledWith (recorded left : PulseTokens) (m : ConversationManager) : Prop where
  recorded : ∃ doc turn, m.taskDoc = some doc ∧ doc.completedTurns.getLast? = some turn ∧
    turn.tokens = recorded
  left : m.lastTurnTokens = left

def unwatched : Unit → Report → Option Unit := fun _ _ => some ()

/-- The variable of the turn, in the phases of a call, and whether the stream has reported an update. -/
def Phase.Carries (tokens : PulseTokens) (updated : Bool) : Phase → Prop
  | .idle => True
  | .streaming t r => t.turnTokens = tokens ∧ r.sawUsageUpdate = updated
  | .condensing t | .compacting t | .roundTop t | .requesting t | .roundEnd t _ | .executing t _
  | .approving t _ _ | .running t _ _ | .parallel t _ | .recording t _ _ => t.turnTokens = tokens

/-- The end of the stream without calls for which no evidence is missing. -/
def Phase.completes (env : Environment) : Phase → Bool
  | .roundEnd t r =>
    r.openCalls.isEmpty && !(env.client.isLocalEndpoint && t.requiresToolEvidence && !t.sawAnyToolRound)
  | _ => false

/-- Where the turn completes its tokens are handed on to both places, and elsewhere nothing is left. -/
def Returned (completes : Bool) (tokens : PulseTokens) (m : ConversationManager) : Prop :=
  if completes then SettledWith tokens tokens m else SettledWith {} {} m ∨ SettledWith tokens {} m

/-- What a step does with the tokens: the call returns, or they are carried on. -/
def TokenStep (completes : Bool) (tokens tokens' : PulseTokens) (updated : Bool)
    (x : Emitter ConversationManager Report Phase) : Prop :=
  Spec unwatched (fun m _ => InCall m) x fun phase' m _ =>
    phase' = .idle ∧ Returned completes tokens m ∨ phase' ≠ .idle ∧ InCall m ∧ phase'.Carries tokens' updated

/-- `x` stays within the call. -/
def StaysInCall {α : Type} (x : Emitter ConversationManager Report α) : Prop :=
  Spec unwatched (fun m _ => InCall m) x fun _ m _ => InCall m

section Rules

variable {α : Type} {completes : Bool} {tokens tokens' : PulseTokens} {updated : Bool}

theorem staysInCall_of_leaves {x : Emitter ConversationManager Report α}
    (h : Leaves callPart Report.IsUpdate x) : StaysInCall x :=
  Leaves.keeps (I := fun m _ => InCall m) h (fun _ _ _ hpart hm => hm.of_callPart hpart)
    fun _ _ _ => rfl

theorem staysInCall_modify {f : ConversationManager → ConversationManager}
    (h : ∀ m, callPart (f m) = callPart m) :
    StaysInCall (modify f : Emitter ConversationManager Report Unit) :=
  Spec.modify fun m _ hm => hm.of_callPart (h m)

theorem staysInCall_emit (report : Report) :
    StaysInCall (emit report : Emitter ConversationManager Report Unit) :=
  Spec.emit fun _ _ hm => ⟨(), rfl, hm⟩

theorem TokenStep.bind {x : Emitter ConversationManager Report α}
    {f : α → Emitter ConversationManager Report Phase} (hx : StaysInCall x)
    (hf : ∀ a, TokenStep completes tokens tokens' updated (f a)) :
    TokenStep completes tokens tokens' updated (x >>= f) := Spec.bind hx hf

theorem TokenStep.read {f : ConversationManager → Emitter ConversationManager Report Phase}
    (hf : ∀ m, TokenStep completes tokens tokens' updated (f m)) :
    TokenStep completes tokens tokens' updated (Emitter.read >>= f) := Spec.read_any hf

theorem TokenStep.goesOn {phase : Phase} (h : phase ≠ .idle) (hcarries : phase.Carries tokens' updated) :
    TokenStep completes tokens tokens' updated (pure phase) :=
  Spec.pure fun _ _ hm => Or.inr ⟨h, hm, hcarries⟩

end Rules

variable (env : Environment)

/-! ### The operations -/

theorem callPart_applyDocDelta (signal : RuntimeSignal) :
    Leaves callPart Report.IsUpdate (applyDocDelta env signal) := by
  intro m a out m' hrun
  obtain ⟨hkept, hout⟩ := quiet_applyDocDelta env signal m a out m' hrun
  refine ⟨Prod.ext ?_ (isOpen_of_kept hkept), hout⟩
  cases hdoc : m.taskDoc with
  | none =>
    rw [applyDocDelta_run_none env hdoc] at hrun
    obtain ⟨-, rfl⟩ := by simpa using hrun
    rfl
  | some doc =>
    rw [applyDocDelta_run_some env hdoc] at hrun
    obtain ⟨-, rfl⟩ := by simpa using hrun
    rfl

theorem frame_callPart : Frame env callPart where
  doc signal _ := callPart_applyDocDelta env signal
  fields m m' _ _ hdoc htokens := by
    rw [callPart, callPart, ConversationManager.activePulse, ConversationManager.activePulse, hdoc, htokens]

theorem staysInCall_pushMessage (message : ApiMessage) : StaysInCall (pushMessage message) :=
  staysInCall_modify fun _ => rfl

theorem staysInCall_setMessages (messages : List ApiMessage) : StaysInCall (setMessages messages) :=
  staysInCall_modify fun _ => rfl

theorem staysInCall_emitGuardLine (message : String) : StaysInCall (emitGuardLine message) :=
  Spec.forSome fun _ _ => staysInCall_emit _

variable {c c' : Machine} (r : RoundState) (t : TurnState) (toolCallId : String) (e : ToolRound)
  (call : ToolCall) (result : Except String String) (toolName : String) (arguments : Value)

theorem staysInCall_setToolCallStatus (status : ToolStatus) :
    StaysInCall (setToolCallStatus env toolCallId status) :=
  staysInCall_of_leaves ((frame_callPart env).showsAll.setToolCallStatus _ _)

theorem staysInCall_refuseCall (clarification : String) : StaysInCall (refuseCall env e call clarification) :=
  staysInCall_of_leaves ((frame_callPart env).showsAll.refuseCall _ _ _)

theorem staysInCall_recordResult : StaysInCall (recordResult env t e call result) := by
  refine Spec.bind (staysInCall_setToolCallStatus env _ _) fun _ => ?_
  refine Spec.bind (staysInCall_of_leaves ((frame_callPart env).showsAll.pushToolResultBlock _ _ _)) fun _ => ?_
  refine Spec.bind (R := fun _ m _ => InCall m) (Spec.read_any fun m => ?_) fun _ =>
    Spec.pure fun _ _ hm => hm
  refine Spec.bind (Spec.forSome fun _ _ => staysInCall_emit _) fun _ => ?_
  exact Spec.bind (staysInCall_modify fun _ => rfl) fun _ => Spec.pure fun _ _ hm => hm

/-! ### The ways out -/

theorem returnTurn_settles (outcome : PulseOutcome) (recorded left : PulseTokens)
    (result : Except String String) :
    Spec unwatched (fun m _ => m.lastTurnTokens = left ∧ m.activePulse.isSome = true)
      (returnTurn env outcome recorded result) fun phase' m _ =>
        phase' = .idle ∧ SettledWith recorded left m := by
  refine Spec.of_run fun m mon hm => ?_
  obtain ⟨hleft, hopen⟩ := hm
  obtain ⟨active, hactive⟩ := Option.isSome_iff_exists.mp hopen
  obtain ⟨doc, hdoc, hpulse⟩ := Option.bind_eq_some_iff.mp hactive
  have hrun : returnTurn env outcome recorded result m = some (.idle, [.returned result],
      { m with
        taskDoc := some (doc.finishTurn outcome recorded (env.clock m.clockReads)).1
        toolCallStartedAt := []
        clockReads := m.clockReads + 1 }) := by
    unfold returnTurn
    rw [bind_of_some (finishTurnDoc_run env hdoc outcome recorded)]
    rfl
  refine ⟨.idle, [.returned result], _, mon, hrun, rfl, rfl, ⟨?_, hleft⟩⟩
  simp only [TaskDocument.finishTurn, hpulse]
  exact ⟨_, _, rfl, List.getLast?_concat, rfl⟩

section WaysOut

variable {tokens tokens' : PulseTokens} {updated : Bool}

theorem returnTurn_tokens {recorded : PulseTokens} (h : recorded = {} ∨ recorded = tokens)
    (outcome : PulseOutcome) (result : Except String String) :
    TokenStep false tokens tokens' updated (returnTurn env outcome recorded result) := by
  refine Spec.conseq (returnTurn_settles env outcome recorded {} result) (fun _ _ hm => hm) ?_
  rintro phase' m mon ⟨hidle, hsettled⟩
  refine Or.inl ⟨hidle, ?_⟩
  rcases h with rfl | rfl
  · exact Or.inl hsettled
  · exact Or.inr hsettled

theorem returnGuarded_tokens (message : String) :
    TokenStep false tokens tokens' updated (returnGuarded env message) := by
  refine TokenStep.bind (staysInCall_emitGuardLine message) fun _ => ?_
  intro m mon phase' out m' hm hrun
  rw [bind_of_some (read_run m), prepend_nil, hm.1] at hrun
  exact returnTurn_tokens env (Or.inl rfl) .completed (.ok message) m mon phase' out m' hm hrun

end WaysOut

/-! ### The steps of a call -/

theorem tokens_countRound (blocks : List ContentBlock) :
    (t.countRound env blocks).turnTokens = t.turnTokens := by
  unfold TurnState.countRound
  split <;> rfl

theorem tokens_noteRead : (t.noteRead call result).turnTokens = t.turnTokens := by
  unfold TurnState.noteRead
  split
  · split <;> rfl
  · rfl

theorem recordResult_tokens :
    Ensures (recordResult env t e call result) fun res => res.1.turnTokens = t.turnTokens :=
  Ensures.last fun _ => Ensures.last fun _ => Ensures.last fun _ =>
    Ensures.pure (tokens_noteRead t call result)

section Steps

variable {completes updated : Bool}

variable (t : TurnState) (e : ToolRound) (call : ToolCall)

theorem condenseOld_tokens : TokenStep completes t.turnTokens t.turnTokens updated (condenseOld env t) :=
  TokenStep.read fun _ => TokenStep.bind (staysInCall_setMessages _) fun _ =>
    TokenStep.goesOn nofun rfl

theorem compactProactively_tokens :
    TokenStep completes t.turnTokens t.turnTokens updated (compactProactively env t) := by
  refine TokenStep.read fun m => TokenStep.bind (staysInCall_setMessages _) fun _ => ?_
  cases (proactiveCompaction env m t).2 with
  | none => exact TokenStep.goesOn nofun rfl
  | some counts => exact TokenStep.bind (staysInCall_emit _) fun _ => TokenStep.goesOn nofun rfl

theorem startRound_tokens : TokenStep false t.turnTokens t.turnTokens updated (startRound env t) := by
  refine TokenStep.bind (staysInCall_modify fun _ => rfl) fun _ => TokenStep.read fun m => ?_
  refine TokenStep.bind (staysInCall_setMessages _) fun _ => ?_
  dsimp only
  split
  · exact TokenStep.bind (staysInCall_emitGuardLine _) fun _ =>
      returnTurn_tokens env (Or.inl rfl) _ _
  · refine TokenStep.bind (Spec.onlyIf fun _ => staysInCall_pushMessage _) fun _ => ?_
    exact TokenStep.read fun m => TokenStep.bind (staysInCall_emit _) fun _ =>
      TokenStep.goesOn nofun rfl

theorem streamFailed_tokens (message : String) :
    TokenStep false t.turnTokens t.turnTokens updated (streamFailed env t message) := by
  unfold streamFailed
  split
  · refine TokenStep.read fun m => TokenStep.bind (staysInCall_setMessages _) fun _ => ?_
    exact TokenStep.bind (staysInCall_emit _) fun _ => TokenStep.goesOn nofun rfl
  · exact returnTurn_tokens env (Or.inr rfl) _ _

theorem complete_tokens (text : String) :
    TokenStep true t.turnTokens t.turnTokens updated (do
      promoteThinkingBlocksToFinalText env
      modify fun m => { m with lastTurnTokens := t.turnTokens }
      returnTurn env .completed t.turnTokens (.ok text)) := by
  refine TokenStep.bind
    (staysInCall_of_leaves (frame_callPart env).showsAll.promoteThinkingBlocksToFinalText) fun _ => ?_
  refine Spec.bind (R := fun _ m _ => m.lastTurnTokens = t.turnTokens ∧ m.activePulse.isSome = true)
    (Spec.modify fun _ _ hm => ⟨rfl, hm.2⟩) fun _ => ?_
  refine Spec.conseq (returnTurn_settles env _ _ _ _) (fun _ _ hm => hm) ?_
  exact fun _ _ _ h => Or.inl h

theorem endWithoutCalls_tokens (text : String) :
    TokenStep (!(env.client.isLocalEndpoint && t.requiresToolEvidence && !t.sawAnyToolRound))
      t.turnTokens t.turnTokens updated (endWithoutCalls env t text) := by
  unfold endWithoutCalls
  dsimp only
  cases hmissing : env.client.isLocalEndpoint && t.requiresToolEvidence && !t.sawAnyToolRound with
  | false =>
    exact complete_tokens env t text
  | true =>
    split
    · exact TokenStep.bind (staysInCall_pushMessage _) fun _ => TokenStep.goesOn nofun rfl
    · exact returnGuarded_tokens env _

theorem startCalls_tokens (blocks : List ContentBlock) (useStructuredRound : Bool) :
    TokenStep completes t.turnTokens t.turnTokens updated (startCalls env t blocks useStructuredRound) := by
  unfold startCalls
  split
  · refine TokenStep.bind (Spec.forEach fun call _ => ?_) fun _ => TokenStep.goesOn nofun rfl
    exact staysInCall_setToolCallStatus env _ _
  · exact TokenStep.goesOn nofun rfl

theorem roundVerdict_of_isEmpty {t : TurnState} {blocks : List ContentBlock} {text : String}
    (h : blocks.isEmpty = true) : roundVerdict env t blocks text = .proceed := by
  rw [roundVerdict, if_pos h]

theorem endRound_tokens (r : RoundState) :
    TokenStep (Phase.completes env (.roundEnd t r)) t.turnTokens t.turnTokens updated (endRound env t r) := by
  have hcounted := tokens_countRound env t r.openCalls
  unfold endRound
  dsimp only
  cases hblocks : r.openCalls.isEmpty with
  | true =>
    have hsaw : (t.countRound env r.openCalls).sawAnyToolRound = t.sawAnyToolRound := by
      rw [TurnState.countRound, if_pos hblocks]
    have hasked : (t.countRound env r.openCalls).requiresToolEvidence = t.requiresToolEvidence := by
      rw [TurnState.countRound, if_pos hblocks]
      rfl
    rw [roundVerdict_of_isEmpty env hblocks]
    refine TokenStep.bind (staysInCall_pushMessage _) fun _ => ?_
    have hend : TokenStep _ _ _ updated (endWithoutCalls env
        { t.countRound env r.openCalls with lastAssistantTextForHistory := r.assistantText }
        r.assistantText) := endWithoutCalls_tokens env _ _
    simp only [Phase.completes, hblocks, Bool.true_and, ← hsaw, ← hasked]
    rw [← hcounted]
    exact hend
  | false =>
    have hcompletes : Phase.completes env (.roundEnd t r) = false := by
      rw [Phase.completes, hblocks, Bool.false_and]
    rw [hcompletes]
    split
    · exact returnGuarded_tokens env _
    · refine TokenStep.bind (staysInCall_pushMessage _) fun _ => ?_
      exact TokenStep.bind (staysInCall_pushMessage _) fun _ => TokenStep.goesOn nofun hcounted
    · refine TokenStep.bind (staysInCall_pushMessage _) fun _ => ?_
      rw [← hcounted]
      exact startCalls_tokens env _ _ _

theorem finishCalls_tokens : TokenStep completes t.turnTokens t.turnTokens updated (finishCalls t e) :=
  TokenStep.bind (staysInCall_pushMessage _) fun _ => TokenStep.goesOn nofun rfl

theorem takeCall_tokens : TokenStep completes t.turnTokens t.turnTokens updated (takeCall env t e call) := by
  unfold takeCall
  split
  · exact TokenStep.bind (staysInCall_refuseCall env _ _ _) fun _ => TokenStep.goesOn nofun rfl
  · split
    · refine TokenStep.bind (staysInCall_setToolCallStatus env _ _) fun _ => ?_
      exact TokenStep.bind (staysInCall_emit _) fun _ => TokenStep.goesOn nofun rfl
    · exact TokenStep.bind (staysInCall_setToolCallStatus env _ _) fun _ => TokenStep.goesOn nofun rfl

theorem answerApproval_tokens (approved : Bool) :
    TokenStep completes t.turnTokens t.turnTokens updated (answerApproval env t e call approved) := by
  cases approved with
  | true =>
    exact TokenStep.bind (staysInCall_setToolCallStatus env _ _) fun _ => TokenStep.goesOn nofun rfl
  | false => exact TokenStep.bind (staysInCall_refuseCall env _ _ _) fun _ => TokenStep.goesOn nofun rfl

theorem recordResult_step (result : Except String String) {f : TurnState × ToolRound → Phase}
    (hf : ∀ res, f res ≠ .idle ∧ (res.1.turnTokens = t.turnTokens → (f res).Carries t.turnTokens updated)) :
    TokenStep completes t.turnTokens t.turnTokens updated
      (recordResult env t e call result >>= fun res => pure (f res)) := by
  refine Spec.bind ((staysInCall_recordResult env t e call result).ensures
    (recordResult_tokens env t e call result)) fun res => Spec.pure fun _ _ hm => ?_
  obtain ⟨htokens, hcall⟩ := hm
  exact Or.inr ⟨(hf res).1, hcall, (hf res).2 htokens⟩

end Steps

/-! ### The signals of a stream -/

theorem startCall_sawUsageUpdate :
    (r.startCall toolCallId toolName arguments).sawUsageUpdate = r.sawUsageUpdate := by
  unfold RoundState.startCall
  split <;> rfl

theorem updateCall_sawUsageUpdate (toolName : Option String) (arguments : Option Value) :
    (r.updateCall toolCallId toolName arguments).sawUsageUpdate = r.sawUsageUpdate := by
  unfold RoundState.updateCall
  split <;> rfl

theorem receiveBlockStart_sawUsageUpdate (index : ℕ) (block : StreamBlock) :
    Ensures (receiveBlockStart env r index block) fun r' => r'.sawUsageUpdate = r.sawUsageUpdate := by
  cases block with
  | toolCall id name input status => exact Ensures.pure rfl
  | _ => exact Ensures.last fun _ => Ensures.pure rfl

theorem receiveBlockDelta_sawUsageUpdate (index : ℕ) (delta : String) :
    Ensures (receiveBlockDelta env r index delta) fun r' => r'.sawUsageUpdate = r.sawUsageUpdate := by
  unfold receiveBlockDelta
  split
  · exact Ensures.pure rfl
  · exact Ensures.last fun _ => Ensures.pure rfl

theorem takePendingBlock_sawUsageUpdate :
    Ensures (takePendingBlock env r toolCallId toolName arguments) fun r' =>
      r'.sawUsageUpdate = r.sawUsageUpdate := by
  unfold takePendingBlock
  cases r.pendingToolBlockIndices with
  | nil => exact Ensures.pure rfl
  | cons index pending => exact Ensures.last fun _ => Ensures.pure rfl

theorem receiveToolCallStarted_sawUsageUpdate (status : ToolStatus) (startedAt : String) :
    Ensures (receiveToolCallStarted env r toolCallId toolName arguments status startedAt) fun r' =>
      r'.sawUsageUpdate = r.sawUsageUpdate := by
  refine Ensures.last fun _ => ?_
  refine Ensures.bind (takePendingBlock_sawUsageUpdate env r toolCallId toolName arguments)
    fun r' hr' => Ensures.last fun _ => Ensures.pure ?_
  rw [startCall_sawUsageUpdate, hr']

def reportsUsage : RuntimeSignal → Bool
  | .usageUpdated _ | .pulseEnd .. => true
  | _ => false

theorem receiveSignal_keeps_tokens (r : RoundState) {signal : RuntimeSignal}
    (h : reportsUsage signal = false) :
    Ensures (receiveSignal env t r signal) fun res =>
      res.1 = t ∧ res.2.sawUsageUpdate = r.sawUsageUpdate := by
  cases signal with
  | usageUpdated usage | pulseEnd status usage changedFiles => cases h
  | pulseStart input => exact Ensures.pure ⟨rfl, rfl⟩
  | transcriptLine line | transcriptBlockComplete index | toolCallCompleted | toolCallFailed
  | serverMetadata metadata =>
    exact Ensures.last fun _ => Ensures.last fun _ => Ensures.pure ⟨rfl, rfl⟩
  | transcriptBlockStart index block =>
    exact Ensures.bind (receiveBlockStart_sawUsageUpdate env r index block)
      fun r' hr' => Ensures.pure ⟨rfl, hr'⟩
  | transcriptBlockDelta index delta =>
    exact Ensures.bind (receiveBlockDelta_sawUsageUpdate env r index delta)
      fun r' hr' => Ensures.pure ⟨rfl, hr'⟩
  | toolCallStarted toolCallId toolName arguments status startedAt =>
    exact Ensures.bind
      (receiveToolCallStarted_sawUsageUpdate env r toolCallId toolName arguments status startedAt)
      fun r' hr' => Ensures.pure ⟨rfl, hr'⟩
  | toolCallArgumentsDelta toolCallId toolName delta status arguments invalidJson =>
    refine Ensures.bind (Q := fun r' : RoundState => r'.sawUsageUpdate = r.sawUsageUpdate) ?_
      fun r' hr' => Ensures.pure ⟨rfl, hr'⟩
    exact Ensures.last fun _ => Ensures.last fun _ => Ensures.last fun _ =>
      Ensures.pure (updateCall_sawUsageUpdate r toolCallId toolName arguments)
  | _ => exact Ensures.last fun _ => Ensures.pure ⟨rfl, rfl⟩

theorem note_of_not_reports {signal : RuntimeSignal} (h : reportsUsage signal = false)
    (g : TurnUsage) : g.note (.signal signal) = g := by
  cases signal <;> first | rfl | cases h

theorem receiveSignal_tokens (r : RoundState) (signal : RuntimeSignal) (g : TurnUsage)
    (horder : (Event.signal signal).updatesUsage = true → g.ends = [])
    (htokens : t.turnTokens = sumUsages g.counted) (hsaw : r.sawUsageUpdate = !g.updates.isEmpty) :
    Ensures (receiveSignal env t r signal) fun res =>
      res.1.turnTokens = sumUsages (g.note (.signal signal)).counted ∧
        res.2.sawUsageUpdate = !(g.note (.signal signal)).updates.isEmpty := by
  cases hreports : reportsUsage signal with
  | false =>
    rw [note_of_not_reports hreports]
    intro m res out m' hrun
    obtain ⟨hturn, hround⟩ := receiveSignal_keeps_tokens env t r hreports m res out m' hrun
    rw [hturn, hround]
    exact ⟨htokens, hsaw⟩
  | true =>
    cases signal with
    | usageUpdated usage =>
      have hends : g.ends = [] := horder rfl
      refine Ensures.pure ⟨?_, ?_⟩
      · -- the updates so far are all that counts of the stream
        have hcounted : g.counted = g.earlier ++ g.updates := by
          rw [TurnUsage.counted, hends]
          cases g.updates <;> rfl
        have hnext : (g.note (.signal (.usageUpdated usage))).counted =
            g.earlier ++ (g.updates ++ [usage]) := by
          show g.earlier ++ (if (g.updates ++ [usage]).isEmpty then g.ends else g.updates ++ [usage]) = _
          rw [if_neg (by simp)]
        show accumulateUsageEnvelope t.turnTokens (some usage) = _
        rw [htokens, accumulate_sumUsages, hcounted, hnext, List.append_assoc]
        rfl
      · show true = !(g.updates ++ [usage]).isEmpty
        simp
    | pulseEnd status usage changedFiles =>
      have hnext : (g.note (.signal (.pulseEnd status usage changedFiles))).counted =
          g.earlier ++ if g.updates.isEmpty then g.ends ++ usage.toList else g.updates := rfl
      have hupdates : (g.note (.signal (.pulseEnd status usage changedFiles))).updates = g.updates := rfl
      rw [hnext, hupdates, ← hsaw]
      simp only [receiveSignal]
      cases hempty : g.updates.isEmpty with
      | true =>
        have hunseen : ¬ r.sawUsageUpdate = true := by rw [hsaw, hempty]; decide
        rw [if_neg hunseen, if_pos rfl]
        refine Ensures.pure ⟨?_, rfl⟩
        rw [TurnUsage.counted, hempty, if_pos rfl] at htokens
        rw [htokens, accumulate_sumUsages, List.append_assoc]
      | false =>
        have hseen : r.sawUsageUpdate = true := by rw [hsaw, hempty]; rfl
        rw [if_pos hseen]
        refine Ensures.pure ⟨?_, rfl⟩
        rw [TurnUsage.counted, hempty] at htokens
        exact htokens
    | _ => cases hreports

/-! ### One step, and runs -/

/-- **One step of a call** carries the usage on that the streams have reported, or the call returns. -/
theorem advance_tokens (phase : Phase) (event : Event) :
    ∀ g : TurnUsage, event ≠ .cancel → phase ≠ .idle →
      (event.updatesUsage = true → g.ends = []) →
      phase.Carries (sumUsages g.counted) (!g.updates.isEmpty) →
      TokenStep (phase.completes env) (sumUsages g.counted) (sumUsages (g.note event).counted)
        (!(g.note event).updates.isEmpty) (advance env phase event) := by
  refine advance_cases env
    (M := fun phase event x => ∀ g : TurnUsage, event ≠ .cancel → phase ≠ .idle →
      (event.updatesUsage = true → g.ends = []) →
      phase.Carries (sumUsages g.counted) (!g.updates.isEmpty) →
      TokenStep (phase.completes env) (sumUsages g.counted) (sumUsages (g.note event).counted)
        (!(g.note event).updates.isEmpty) x)
    ?crash ?send ?clear ?condensing ?compacting ?roundTop ?opened ?failed ?signal ?streamError ?ended
    ?roundEnd ?callsDone ?call ?approval ?tool ?tools ?recorded ?record ?cancel phase event
  case crash => exact fun _ _ _ _ _ _ _ => Spec.crash
  case send => exact fun _ _ _ _ _ _ h => absurd rfl h
  case clear => exact fun _ _ h => absurd rfl h
  case condensing => exact fun t g _ _ _ hcarries => hcarries ▸ condenseOld_tokens env t
  case compacting => exact fun t g _ _ _ hcarries => hcarries ▸ compactProactively_tokens env t
  case roundTop => exact fun t g _ _ _ hcarries => hcarries ▸ startRound_tokens env t
  case opened =>
    intro t g _ _ _ hcarries
    have hcounted : (g.note .streamOpened).counted = g.counted := List.append_nil _
    refine TokenStep.bind (staysInCall_emit _) fun _ => TokenStep.goesOn nofun ⟨?_, rfl⟩
    rw [hcounted]
    exact hcarries
  case failed => exact fun t message g _ _ _ hcarries => hcarries ▸ streamFailed_tokens env t message
  case signal =>
    intro t r signal g _ _ horder hcarries
    have hstays : StaysInCall (receiveSignal env t r signal) := staysInCall_of_leaves
      ((frame_callPart env).showsAll.receiveAnySignal (callPart_applyDocDelta env) t r signal)
    refine Spec.bind (hstays.ensures
      (receiveSignal_tokens env t r signal g horder hcarries.1 hcarries.2)) fun res => ?_
    refine Spec.pure fun _ _ hm => ?_
    obtain ⟨⟨htokens, hsaw⟩, hcall⟩ := hm
    exact Or.inr ⟨nofun, hcall, htokens, hsaw⟩
  case streamError => exact fun t r message g _ _ _ hcarries => returnTurn_tokens env (Or.inr hcarries.1) _ _
  case ended => exact fun t r g _ _ _ hcarries => TokenStep.goesOn nofun hcarries.1
  case roundEnd => exact fun t r g _ _ _ hcarries => hcarries ▸ endRound_tokens env t r
  case callsDone => exact fun t e _ g _ _ _ hcarries => hcarries ▸ finishCalls_tokens t e
  case call => exact fun t e call remaining _ g _ _ _ hcarries => hcarries ▸ takeCall_tokens env t _ call
  case approval =>
    exact fun t e call approved g _ _ _ hcarries => hcarries ▸ answerApproval_tokens env t e call approved
  case tool =>
    exact fun t e call result g _ _ _ hcarries => hcarries ▸ recordResult_step env t e call result
      (f := fun res => .executing res.1 res.2) fun res => ⟨nofun, fun h => h⟩
  case tools => exact fun t e results _ g _ _ _ hcarries => TokenStep.goesOn nofun hcarries
  case recorded => exact fun t e results _ g _ _ _ hcarries => hcarries ▸ finishCalls_tokens t e
  case record =>
    exact fun t e call remaining result results _ g _ _ _ hcarries =>
      hcarries ▸ recordResult_step env t { e with remaining } call result
        (f := fun res => .recording res.1 res.2 results) fun res => ⟨nofun, fun h => h⟩
  case cancel => exact fun _ _ _ h => absurd rfl h

theorem sendMessage_leaves_none (content : String) (policy : PulseToolPolicy) (context : Option String)
    (window : ℕ) :
    Spec unwatched (fun _ _ => True) (sendMessage env content policy context window)
      fun _ m _ => m.lastTurnTokens = {} := by
  have hkeeps : ∀ {α : Type} {x : Emitter ConversationManager Report α},
      Leaves (fun m => m.lastTurnTokens) (fun _ => True) x →
        Spec unwatched (fun m _ => m.lastTurnTokens = {}) x fun _ m _ => m.lastTurnTokens = {} :=
    fun h => Leaves.keeps (I := fun m _ => m.lastTurnTokens = {}) h
      (fun _ _ _ hkept hm => hkept.trans hm) fun _ _ _ => rfl
  have hclock : Leaves (fun m : ConversationManager => m.lastTurnTokens) (fun _ => True) (readClock env) :=
    Leaves.bind Leaves.read fun _ => Leaves.bind (Leaves.modify fun _ => rfl) fun _ => Leaves.pure _
  have hreturn : ∀ response, Leaves (fun m : ConversationManager => m.lastTurnTokens) (fun _ => True)
      (returnTurn env .completed {} (.ok response)) := by
    intro response
    refine Leaves.bind (Leaves.bind Leaves.read fun m => ?_) fun _ =>
      Leaves.bind (Leaves.emit trivial) fun _ => Leaves.pure _
    cases m.taskDoc with
    | none => exact Leaves.modify fun _ => rfl
    | some doc =>
      exact Leaves.bind hclock fun _ => Leaves.bind (Leaves.modify fun _ => rfl) fun _ =>
        Leaves.modify fun _ => rfl
  refine Spec.bind (R := fun _ m _ => m.lastTurnTokens = {}) (Spec.modify fun _ _ _ => rfl) fun _ => ?_
  refine hkeeps (Leaves.bind (Leaves.bind Leaves.read fun m => ?_) fun _ => Leaves.bind
    (Leaves.bind Leaves.read fun m => ?_) fun begun => ?_)
  · cases m.taskDoc with
    | some doc => exact Leaves.pure _
    | none => exact Leaves.bind hclock fun _ => Leaves.modify fun _ => rfl
  · cases m.taskDoc with
    | none => exact Leaves.bind (Leaves.modify fun _ => rfl) fun _ => Leaves.pure _
    | some doc =>
      refine Leaves.bind hclock fun now => ?_
      cases doc.beginTurn content now policy with
      | none => exact Leaves.pure _
      | some doc' =>
        exact Leaves.bind (Leaves.modify fun _ => rfl) fun _ => Leaves.bind (Leaves.modify fun _ => rfl)
          fun _ => Leaves.pure _
  · cases begun with
    | false => exact Leaves.bind (Leaves.emit trivial) fun _ => Leaves.pure _
    | true =>
      refine Leaves.bind (Leaves.emit trivial) fun _ => Leaves.bind (Leaves.modify fun _ => rfl) fun _ => ?_
      cases builtinSupportedGitToolsResponse content with
      | some response =>
        exact Leaves.bind (Leaves.modify fun _ => rfl) fun _ => Leaves.bind (Leaves.emit trivial)
          fun _ => hreturn response
      | none => exact Leaves.bind Leaves.read fun _ => Leaves.pure _

theorem sendMessage_carries (content : String) (policy : PulseToolPolicy) (context : Option String)
    (window : ℕ) :
    Ensures (sendMessage env content policy context window) fun phase => phase.Carries {} false := by
  refine Ensures.last fun _ => Ensures.last fun _ => Ensures.last fun begun => ?_
  cases begun with
  | false => exact Ensures.last fun _ => Ensures.pure trivial
  | true =>
    refine Ensures.last fun _ => Ensures.last fun _ => ?_
    cases builtinSupportedGitToolsResponse content with
    | some response =>
      exact Ensures.last fun _ => Ensures.last fun _ => Ensures.last fun _ => Ensures.last fun _ =>
        Ensures.pure trivial
    | none => exact Ensures.last fun _ => Ensures.pure rfl

theorem sendMessage_inCall {content : String} {policy : PulseToolPolicy} {context : Option String}
    {window : ℕ} {m m' : ConversationManager} {phase : Phase} {out : List Report}
    (hrun : sendMessage env content policy context window m = some (phase, out, m'))
    (hphase : phase ≠ .idle) : InCall m' ∧ phase.Carries {} false := by
  refine ⟨⟨?_, ?_⟩, sendMessage_carries env content policy context window m phase out m' hrun⟩
  · exact (sendMessage_leaves_none env content policy context window m () phase out m' trivial
      hrun).choose_spec.2
  · cases hpulse : m.activePulse with
    | some active => exact absurd (sendMessage_open env (by rw [hpulse]; rfl) hrun) hphase
    | none =>
      obtain ⟨begun, -, hinv⟩ := sendMessage_spec env content policy context window m
        m.completedInputs phase out m' ⟨hpulse, rfl⟩ hrun
      obtain ⟨active, hactive, -⟩ := (turnInv_iff_open hphase).mp hinv
      rw [hactive]
      rfl

/-- Between two calls nothing happens within one. -/
theorem idle_of_run {events : List Event} (hcalls : ∀ event ∈ events, event.isBetweenCalls = false)
    {reports : List Report} (hidle : c.phase = .idle)
    (hrun : run env events c = some ((), reports, c')) : c'.phase = .idle := by
  cases events with
  | nil =>
    obtain ⟨-, rfl⟩ := by simpa [run, forEach] using hrun
    exact hidle
  | cons event events =>
    obtain ⟨⟨⟩, out, c₁, out', hstep, -, -⟩ := bind_eq_some hrun
    have hadvance := advance_of_step env hstep
    have hcall := hcalls event List.mem_cons_self
    rw [hidle] at hadvance
    cases event with
    | send => cases hcall
    | clear => cases hcall
    | _ => cases hadvance

theorem idle_of_cancel {out : List Report} (hstep : step env .cancel c = some ((), out, c')) :
    c'.phase = .idle := by
  have hadvance := advance_of_step env hstep
  have hdrop : advance env c.phase .cancel =
      if c.phase.isAwait then (do emit .cancelled; pure .idle) else Emitter.crash := by
    cases c.phase <;> rfl
  rw [hdrop] at hadvance
  split at hadvance
  · simp only [bind_run, emit_run, pure_run, prepend_some, Option.some.injEq, Prod.mk.injEq] at hadvance
    exact hadvance.1.symm
  · cases hadvance

/-- **A run within a call** carries on what the streams have reported. -/
theorem tokens_run {events : List Event} (hcalls : ∀ event ∈ events, event.isBetweenCalls = false)
    {g : TurnUsage} {reports : List Report} (horder : UsageInOrder g events) (hcall : InCall c.manager)
    (hcarries : c.phase.Carries (sumUsages g.counted) (!g.updates.isEmpty))
    (hrun : run env events c = some ((), reports, c')) (hend : c'.phase ≠ .idle) :
    InCall c'.manager ∧ c'.phase.Carries (sumUsages (g.noteAll events).counted)
      (!(g.noteAll events).updates.isEmpty) := by
  induction events generalizing c g reports with
  | nil =>
    obtain ⟨-, rfl⟩ := by simpa [run, forEach] using hrun
    exact ⟨hcall, hcarries⟩
  | cons event events ih =>
    obtain ⟨⟨⟩, out, c₁, out', hstep, hrest, -⟩ := bind_eq_some hrun
    have hlater : ∀ event ∈ events, event.isBetweenCalls = false :=
      fun other h => hcalls other (List.mem_cons_of_mem event h)
    have hwithin : ∀ {c : Machine} {events : List Event} {reports : List Report},
        (∀ event ∈ events, event.isBetweenCalls = false) →
          run env events c = some ((), reports, c') → c.phase ≠ .idle :=
      fun hcalls hrun hidle => hend (idle_of_run env hcalls hidle hrun)
    have hne : event ≠ .cancel := fun h =>
      hwithin hlater hrest (idle_of_cancel env (by rw [← h]; exact hstep))
    obtain ⟨-, -, hafter⟩ := advance_tokens env c.phase event g hne (hwithin hcalls hrun) horder.1
      hcarries c.manager () c₁.phase out c₁.manager hcall (advance_of_step env hstep)
    rcases hafter with ⟨hidle, -⟩ | ⟨-, hcall₁, hcarries₁⟩
    · exact absurd hidle (hwithin hlater hrest)
    · exact ih hlater horder.2 hcall₁ hcarries₁ hrest

/-- **The tokens of a turn**: where the call returns, the usage that its streams have reported is
recorded in the finished turn and left in `last_turn_tokens` exactly if the turn completes, or nothing
was used. -/
theorem turn_tokens_accounted (m : ConversationManager) (content : String) (policy : PulseToolPolicy)
    (context : Option String) (window : ℕ) (events : List Event)
    (hcalls : ∀ event ∈ events, event.isBetweenCalls = false) (horder : UsageInOrder {} events)
    (reports : List Report) (c : Machine)
    (hrun : run env (.send content policy context window :: events) { manager := m, phase := .idle } =
      some ((), reports, c))
    (last : Event) (hlast : last.isBetweenCalls = false) (hcancel : last ≠ .cancel)
    (out : List Report) (c' : Machine) (hstep : step env last c = some ((), out, c'))
    (hreturn : c'.phase = .idle) :
    SettledWith (sumUsages (TurnUsage.noteAll {} events).counted)
        (sumUsages (TurnUsage.noteAll {} events).counted) c'.manager ↔
      c.phase.completes env = true ∨ sumUsages (TurnUsage.noteAll {} events).counted = {} := by
  have hwithin : c.phase ≠ .idle := by
    intro hidle
    have hadvance := advance_of_step env hstep
    rw [hidle] at hadvance
    cases last with
    | send | clear => cases hlast
    | _ => cases hadvance
  obtain ⟨⟨⟩, out₁, c₁, out₂, hsend, hrest, -⟩ := bind_eq_some hrun
  have hbegun : c₁.phase ≠ .idle := fun hidle => hwithin (idle_of_run env hcalls hidle hrest)
  obtain ⟨hcall₁, hcarries₁⟩ := sendMessage_inCall env (advance_of_step env hsend) hbegun
  obtain ⟨hcall, hcarries⟩ := tokens_run env hcalls horder hcall₁ hcarries₁ hrest hwithin
  have horder' : last.updatesUsage = true → (TurnUsage.noteAll {} events).ends = [] := by
    -- a signal does not make the call return
    intro hupdates
    cases last with
    | signal signal =>
      have hadvance := advance_of_step env hstep
      rw [hreturn] at hadvance
      cases hphase : c.phase with
      | streaming t r =>
        rw [hphase] at hadvance
        obtain ⟨res, out₃, m', out₄, -, hpure, -⟩ := bind_eq_some hadvance
        simp at hpure
      | _ =>
        rw [hphase] at hadvance
        cases hadvance
    | _ => cases hupdates
  obtain ⟨-, -, hafter⟩ := advance_tokens env c.phase last (TurnUsage.noteAll {} events) hcancel hwithin
    horder' hcarries c.manager () c'.phase out c'.manager hcall (advance_of_step env hstep)
  rcases hafter with ⟨-, hreturned⟩ | ⟨hne, -, -⟩
  · unfold Returned at hreturned
    split at hreturned
    · rename_i hcompletes
      exact ⟨fun _ => Or.inl hcompletes, fun _ => hreturned⟩
    rename_i hcompletes
    have hleft : c'.manager.lastTurnTokens = {} := by
      rcases hreturned with h | h
      all_goals exact h.left
    refine ⟨fun h => Or.inr (h.left.symm.trans hleft), fun h => ?_⟩
    have hnone := h.resolve_left hcompletes
    rw [hnone] at hreturned ⊢
    rcases hreturned with h | h
    all_goals exact h
  · exact absurd hreturn hne

def usedStream (signals : List RuntimeSignal) : List Event :=
  .streamOpened :: (signals.map .signal ++ [.signal (.usageUpdated { input := 10, output := 5 }),
    .signal (.pulseEnd "completed" (some { input := 10, output := 5 }) []), .streamEnded])

def answeredCall : List Event := [.tick, .tick, .tick] ++ usedStream [.transcriptBlockDelta 0 "hello"]

theorem answered_call_accounted :
    ∃ reports c out c', run sampleEnvironment (.send "hi" .default none 8192 :: answeredCall)
        { manager := {}, phase := .idle } = some ((), reports, c) ∧
      step sampleEnvironment .tick c = some ((), out, c') ∧
      SettledWith { input := 10, output := 5 } { input := 10, output := 5 } c'.manager := by
  have h : ((run sampleEnvironment (.send "hi" .default none 8192 :: answeredCall)
      { manager := {}, phase := .idle }).any fun result =>
        (step sampleEnvironment .tick result.2.2).any fun last =>
          decide (last.2.2.phase = .idle) && result.2.2.phase.completes sampleEnvironment) = true := by
    decide +kernel
  obtain ⟨⟨⟨⟩, reports, c⟩, hrun, hlast⟩ := (Option.any_eq_true _ _).mp h
  obtain ⟨⟨⟨⟩, out, c'⟩, hstep, hboth⟩ := (Option.any_eq_true _ _).mp hlast
  obtain ⟨hreturn, hcompletes⟩ := Bool.and_eq_true_iff.mp hboth
  exact ⟨reports, c, out, c', hrun, hstep,
    (turn_tokens_accounted sampleEnvironment {} "hi" .default none 8192 answeredCall (by decide)
      (by decide) reports c hrun .tick rfl (by decide) out c' hstep
      (of_decide_eq_true hreturn)).mpr (Or.inl hcompletes)⟩

def writeRound (id : String) : List Event :=
  usedStream [.toolCallStarted id "write_file" sampleInput .pending ""] ++
    [.tick, .tick, .approvalAnswered true, .toolFinished (.ok "written"), .tick]

def guardedCall : List Event :=
  [.tick, .tick, .tick] ++ writeRound "w1" ++ [.tick] ++
    usedStream [.toolCallStarted "w2" "write_file" sampleInput .pending ""]

/-- **What a guard leaves**: two streams have reported their usage, and none of it is recorded or
left. -/
theorem guarded_call_loses_tokens :
    ∃ reports c out c', run sampleEnvironment (.send "hi" .default none 8192 :: guardedCall)
        { manager := {}, phase := .idle } = some ((), reports, c) ∧
      step sampleEnvironment .tick c = some ((), out, c') ∧ c'.phase = .idle ∧
      sumUsages (TurnUsage.noteAll {} guardedCall).counted = { input := 20, output := 10 } ∧
      ¬ SettledWith { input := 20, output := 10 } { input := 20, output := 10 } c'.manager := by
  have h : ((run sampleEnvironment (.send "hi" .default none 8192 :: guardedCall)
      { manager := {}, phase := .idle }).any fun result =>
        (step sampleEnvironment .tick result.2.2).any fun last =>
          decide (last.2.2.phase = .idle) && decide (last.2.2.manager.lastTurnTokens = {})) = true := by
    decide +kernel
  obtain ⟨⟨⟨⟩, reports, c⟩, hrun, hlast⟩ := (Option.any_eq_true _ _).mp h
  obtain ⟨⟨⟨⟩, out, c'⟩, hstep, hboth⟩ := (Option.any_eq_true _ _).mp hlast
  obtain ⟨hreturn, hleft⟩ := Bool.and_eq_true_iff.mp hboth
  refine ⟨reports, c, out, c', hrun, hstep, of_decide_eq_true hreturn, by decide, fun hsettled => ?_⟩
  have hnone : c'.manager.lastTurnTokens = {} := of_decide_eq_true hleft
  rw [hsettled.left] at hnone
  cases hnone

end Vexcoder.Conversation

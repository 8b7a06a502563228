import Vexcoder.Conversation.CallInputs

/-!
# The bound on the agent loop

How often one call of `send_message` goes round its loop.  Of the turn only three variables matter:
the rounds, the overflow retries since the last stream that was opened, and whether the final answer
was asked for.  `LoopMove` says how the phases move through the loop with these, each step of the
machine is such a move (`advance_moves`), and along a run they bound the streams opened, the overflows
between two of them, and the passes of the loop.
-/

namespace Vexcoder.Conversation

open Base Lib Lib.Emitter Vexcoder.Runtime Vexcoder.Task

/-! ### The moves of the loop -/

/-- The variables that decide how long the loop goes on. -/
structure LoopCounters where
  rounds : ℕ := 0
  overflowRetryCount : ℕ := 0
  finalAnswerAttempted : Bool := false

def TurnState.counters (t : TurnState) : LoopCounters :=
  { rounds := t.rounds, overflowRetryCount := t.overflowRetryCount
    finalAnswerAttempted := t.finalAnswerAttempted }

/-- Where a phase stands to the loop. -/
inductive LoopPlace where
  | outside
  | opening (k : LoopCounters)
  | top (k : LoopCounters)
  | requesting (k : LoopCounters)
  | inside (k : LoopCounters)

def Phase.place : Phase → LoopPlace
  | .idle => .outside
  | .condensing t | .compacting t => .opening t.counters
  | .roundTop t => .top t.counters
  | .requesting t => .requesting t.counters
  | .streaming t _ | .roundEnd t _ | .executing t _ | .approving t _ _ | .running t _ _
  | .parallel t _ | .recording t _ _ => .inside t.counters

def LoopPlace.awaits : LoopPlace → Bool
  | .requesting _ | .inside _ => true
  | _ => false

/-- The events of a round behind the opening of its stream. -/
def Event.isWork : Event → Bool
  | .tick | .signal _ | .streamError _ | .streamEnded | .approvalAnswered _ | .toolFinished _
  | .toolsFinished _ => true
  | _ => false

/-- The head of the loop begins a round, or the limit is reached for the second time. -/
def LoopCounters.limitReached (maxRounds : ℕ) (k : LoopCounters) : Bool :=
  maxRounds < k.rounds + 1 && k.finalAnswerAttempted

def LoopCounters.beginRound (maxRounds : ℕ) (k : LoopCounters) : LoopCounters :=
  { k with
    rounds := k.rounds + 1
    finalAnswerAttempted := k.finalAnswerAttempted || maxRounds < k.rounds + 1 }

def LoopCounters.retry (k : LoopCounters) : LoopCounters :=
  { k with overflowRetryCount := k.overflowRetryCount + 1, rounds := k.rounds - 1 }

inductive LoopMove (maxRounds : ℕ) : LoopPlace → Event → LoopPlace → Prop where
  | sent {content policy context window} :
      LoopMove maxRounds .outside (.send content policy context window) (.opening {})
  | answered {content policy context window} :
      LoopMove maxRounds .outside (.send content policy context window) .outside
  | cleared : LoopMove maxRounds .outside .clear .outside
  | opening {k} : LoopMove maxRounds (.opening k) .tick (.opening k)
  | entered {k} : LoopMove maxRounds (.opening k) .tick (.top k)
  | limit {k} : k.limitReached maxRounds = true → LoopMove maxRounds (.top k) .tick .outside
  | round {k} : k.limitReached maxRounds = false →
      LoopMove maxRounds (.top k) .tick (.requesting (k.beginRound maxRounds))
  | streamOpened {k} : LoopMove maxRounds (.requesting k) .streamOpened
      (.inside { k with overflowRetryCount := 0 })
  | overflow {k message} : k.overflowRetryCount < 3 →
      LoopMove maxRounds (.requesting k) (.streamFailed message) (.top k.retry)
  | failed {k message} : LoopMove maxRounds (.requesting k) (.streamFailed message) .outside
  | work {k event} : event.isWork = true → LoopMove maxRounds (.inside k) event (.inside k)
  | again {k event} : event.isWork = true → LoopMove maxRounds (.inside k) event (.top k)
  | returned {k event} : event.isWork = true → LoopMove maxRounds (.inside k) event .outside
  | cancelled {place} : place.awaits = true → LoopMove maxRounds place .cancel .outside

/-! ### The steps of the machine are moves -/

/-- How many more steps a phase can take before the loop goes round again, without signals. -/
def Phase.weight : Phase → ℕ
  | .idle => 0
  | .condensing _ => 2
  | .compacting _ => 1
  | .roundTop _ => 0
  | .requesting _ => 6
  | .streaming _ r => 3 * r.toolUseBlocks.length + 4
  | .roundEnd _ r => 3 * r.toolUseBlocks.length + 3
  | .executing _ e => 3 * e.remaining.length + 1
  | .approving _ e _ => 3 * e.remaining.length + 3
  | .running _ e _ => 3 * e.remaining.length + 2
  | .parallel _ e => e.remaining.length + 2
  | .recording _ e _ => e.remaining.length + 1

/-- What a step does to the weight: a signal may add a call, and a pass of the loop starts anew. -/
def WeightMove (phase : Phase) (event : Event) (phase' : Phase) : Prop :=
  match event with
  | .signal _ => phase'.weight ≤ phase.weight + 3
  | .send .. => phase'.weight ≤ 2
  | .clear => phase'.weight = 0
  | _ =>
    match phase with
    | .roundTop _ => phase'.weight ≤ 6
    | _ => phase'.weight + 1 ≤ phase.weight

/-- A step of a phase is a move of the loop, and the weight moves with it. -/
def StepMoves (maxRounds : ℕ) (phase : Phase) (event : Event)
    (x : Emitter ConversationManager Report Phase) : Prop :=
  Ensures x fun phase' =>
    LoopMove maxRounds phase.place event phase'.place ∧ WeightMove phase event phase'

variable (env : Environment)

section Returns

variable {maxRounds : ℕ} {phase : Phase} {event : Event}

theorem returnTurn_idle (outcome : PulseOutcome) (tokens : PulseTokens) (result : Except String String) :
    Ensures (returnTurn env outcome tokens result) fun phase => phase = .idle :=
  Ensures.last fun _ => Ensures.last fun _ => Ensures.pure rfl

theorem returnGuarded_idle (message : String) :
    Ensures (returnGuarded env message) fun phase => phase = .idle :=
  Ensures.last fun _ => Ensures.last fun _ => returnTurn_idle env _ _ _

theorem stepMoves_of_idle {x : Emitter ConversationManager Report Phase}
    (hx : Ensures x fun phase' => phase' = .idle)
    (hmove : LoopMove maxRounds phase.place event .outside) (hweight : WeightMove phase event .idle) :
    StepMoves maxRounds phase event x := by
  intro m phase' out m' hrun
  obtain rfl := hx m phase' out m' hrun
  exact ⟨hmove, hweight⟩

end Returns

/-! ### What the operations leave of the turn -/

variable (t : TurnState) (r : RoundState) (e : ToolRound) (call : ToolCall)
  (result : Except String String) (maxRounds : ℕ)

theorem counters_countRound (blocks : List ContentBlock) :
    (t.countRound env blocks).counters = t.counters := by
  unfold TurnState.countRound
  split <;> rfl

theorem counters_noteRead : (t.noteRead call result).counters = t.counters := by
  unfold TurnState.noteRead
  split
  · split <;> rfl
  · rfl

theorem recordResult_counters :
    Ensures (recordResult env t e call result) fun res => res.1.counters = t.counters :=
  Ensures.last fun _ => Ensures.last fun _ => Ensures.last fun _ =>
    Ensures.pure (counters_noteRead t call result)

theorem length_startCall_le (toolCallId toolName : String) (arguments : Value) :
    (r.startCall toolCallId toolName arguments).toolUseBlocks.length ≤ r.toolUseBlocks.length + 1 := by
  unfold RoundState.startCall
  split
  · rw [List.length_set]
    exact Nat.le_succ _
  · rw [List.length_append]
    exact Nat.le_refl _

theorem length_updateCall (toolCallId : String) (toolName : Option String) (arguments : Option Value) :
    (r.updateCall toolCallId toolName arguments).toolUseBlocks.length = r.toolUseBlocks.length := by
  unfold RoundState.updateCall
  split
  · rfl
  · exact List.length_modify _ _ _

theorem length_takeSignal_le (signal : RuntimeSignal) :
    (r.takeSignal signal).toolUseBlocks.length ≤ r.toolUseBlocks.length + 1 := by
  cases signal with
  | toolCallStarted toolCallId toolName arguments status startedAt =>
    exact length_startCall_le r toolCallId toolName arguments
  | toolCallArgumentsDelta toolCallId toolName delta status arguments invalidJson =>
    show (r.updateCall toolCallId toolName arguments).toolUseBlocks.length ≤ _
    rw [length_updateCall]
    exact Nat.le_succ _
  | _ => exact Nat.le_succ _

theorem receiveSignal_counters (signal : RuntimeSignal) :
    Ensures (receiveSignal env t r signal) fun res => res.1.counters = t.counters := by
  cases signal with
  | usageUpdated usage | pulseStart input => exact Ensures.pure rfl
  | pulseEnd status usage changedFiles =>
    simp only [receiveSignal]
    split <;> exact Ensures.pure rfl
  | transcriptLine line | transcriptBlockComplete index | toolCallCompleted | toolCallFailed
  | serverMetadata metadata => exact Ensures.last fun _ => Ensures.last fun _ => Ensures.pure rfl
  | _ => exact Ensures.last fun _ => Ensures.pure rfl

/-! ### The steps -/

theorem sendMessage_moves (content : String) (policy : PulseToolPolicy) (context : Option String)
    (window maxRounds : ℕ) :
    StepMoves maxRounds .idle (.send content policy context window)
      (sendMessage env content policy context window) := by
  refine Ensures.last fun _ => Ensures.last fun _ => Ensures.last fun begun => ?_
  cases begun with
  | false => exact Ensures.last fun _ => Ensures.pure ⟨.answered, Nat.zero_le 2⟩
  | true =>
    refine Ensures.last fun _ => Ensures.last fun _ => ?_
    cases builtinSupportedGitToolsResponse content with
    | some response =>
      refine Ensures.last fun _ => Ensures.last fun _ => ?_
      exact stepMoves_of_idle (returnTurn_idle env _ _ _) .answered (Nat.zero_le 2)
    | none => exact Ensures.last fun _ => Ensures.pure ⟨.sent, Nat.le_refl 2⟩

theorem compactProactively_moves : StepMoves maxRounds (.compacting t) .tick (compactProactively env t) := by
  refine Ensures.last fun m => Ensures.last fun _ => ?_
  cases (proactiveCompaction env m t).2 with
  | none => exact Ensures.pure ⟨.entered, Nat.le_refl 1⟩
  | some counts => exact Ensures.last fun _ => Ensures.pure ⟨.entered, Nat.le_refl 1⟩

theorem startRound_moves : StepMoves env.resolveMaxToolRounds (.roundTop t) .tick (startRound env t) := by
  refine Ensures.last fun _ => Ensures.last fun m => Ensures.last fun _ => ?_
  dsimp only
  split
  · rename_i hlimit
    have hreached : t.counters.limitReached env.resolveMaxToolRounds = true := hlimit
    exact stepMoves_of_idle (Ensures.last fun _ => returnTurn_idle env _ _ _) (.limit hreached)
      (Nat.zero_le 6)
  · rename_i hlimit
    have hgoes : t.counters.limitReached env.resolveMaxToolRounds = false :=
      Bool.eq_false_iff.mpr hlimit
    refine Ensures.last fun _ => Ensures.last fun _ => Ensures.last fun _ => Ensures.pure ?_
    exact ⟨.round hgoes, Nat.le_refl 6⟩

theorem streamFailed_moves (message : String) (maxRounds : ℕ) :
    StepMoves maxRounds (.requesting t) (.streamFailed message) (streamFailed env t message) := by
  unfold streamFailed
  split
  · rename_i hretry
    have hcount : t.overflowRetryCount < 3 := by
      have hboth := Bool.and_eq_true_iff.mp hretry
      exact of_decide_eq_true hboth.1
    refine Ensures.last fun _ => Ensures.last fun _ => Ensures.last fun _ => Ensures.pure ?_
    exact ⟨.overflow hcount, Nat.le_add_left 1 5⟩
  · exact stepMoves_of_idle (returnTurn_idle env _ _ _) .failed (Nat.le_add_left 1 5)

theorem endWithoutCalls_moves (text : String) (maxRounds : ℕ) :
    Ensures (endWithoutCalls env t text) fun phase' =>
      LoopMove maxRounds (.inside t.counters) .tick phase'.place ∧
        WeightMove (.roundEnd t r) .tick phase' := by
  unfold endWithoutCalls
  dsimp only
  have hidle : ∀ {x : Emitter ConversationManager Report Phase}, (Ensures x fun phase => phase = .idle) →
      Ensures x fun phase' => LoopMove maxRounds (.inside t.counters) .tick phase'.place ∧
        WeightMove (.roundEnd t r) .tick phase' := by
    intro x hx m phase' out m' hrun
    obtain rfl := hx m phase' out m' hrun
    exact ⟨.returned rfl, Nat.le_add_left 1 _⟩
  split
  · exact Ensures.last fun _ => Ensures.pure ⟨.again rfl, Nat.le_add_left 1 _⟩
  · split
    · exact hidle (returnGuarded_idle env _)
    · exact hidle (Ensures.last fun _ => Ensures.last fun _ => returnTurn_idle env _ _ _)

theorem length_startedCalls_le :
    (r.openCalls.filterMap ContentBlock.toolCall?).length ≤ r.toolUseBlocks.length :=
  (List.length_filterMap_le _ _).trans (List.length_filter_le _ _)

theorem startCalls_moves (t' : TurnState) (r : RoundState) (useStructuredRound : Bool) (maxRounds : ℕ) :
    Ensures (startCalls env t r.openCalls useStructuredRound) fun phase' =>
      LoopMove maxRounds (.inside t.counters) .tick phase'.place ∧
        WeightMove (.roundEnd t' r) .tick phase' := by
  have hlength := length_startedCalls_le r
  unfold startCalls
  split
  · refine Ensures.last fun _ => Ensures.pure ⟨.work rfl, ?_⟩
    show (r.openCalls.filterMap ContentBlock.toolCall?).length + 2 + 1 ≤ 3 * r.toolUseBlocks.length + 3
    omega
  · refine Ensures.pure ⟨.work rfl, ?_⟩
    show 3 * (r.openCalls.filterMap ContentBlock.toolCall?).length + 1 + 1 ≤ 3 * r.toolUseBlocks.length + 3
    omega

theorem endRound_moves : StepMoves maxRounds (.roundEnd t r) .tick (endRound env t r) := by
  have hcounters := counters_countRound env t r.openCalls
  unfold endRound
  dsimp only
  split
  · exact stepMoves_of_idle (returnGuarded_idle env _) (.returned rfl) (Nat.le_add_left 1 _)
  · refine Ensures.last fun _ => Ensures.last fun _ => Ensures.pure ⟨?_, Nat.le_add_left 1 _⟩
    show LoopMove maxRounds (.inside t.counters) .tick (.top (t.countRound env r.openCalls).counters)
    rw [hcounters]
    exact .again rfl
  · refine Ensures.last fun _ => ?_
    have hkept : ({ t.countRound env r.openCalls with
        lastAssistantTextForHistory := r.assistantText } : TurnState).counters = t.counters := hcounters
    split
    · have hmoves := endWithoutCalls_moves env { t.countRound env r.openCalls with
        lastAssistantTextForHistory := r.assistantText } r r.assistantText maxRounds
      rw [hkept] at hmoves
      exact hmoves
    · have hmoves := startCalls_moves env { t.countRound env r.openCalls with
        lastAssistantTextForHistory := r.assistantText } t r (r.useStructuredRound env) maxRounds
      rw [hkept] at hmoves
      exact hmoves

theorem takeCall_moves (remaining : List ToolCall) (hremaining : e.remaining = call :: remaining)
    (maxRounds : ℕ) :
    StepMoves maxRounds (.executing t e) .tick (takeCall env t { e with remaining } call) := by
  have hweight : (Phase.executing t e).weight = 3 * (remaining.length + 1) + 1 := by
    rw [Phase.weight, hremaining, List.length_cons]
  unfold takeCall
  split
  · refine Ensures.bind (refuseCall_remaining env _ call _) fun e' he' => Ensures.pure ⟨.work rfl, ?_⟩
    show 3 * e'.remaining.length + 1 + 1 ≤ (Phase.executing t e).weight
    rw [he', hweight]
    dsimp only
    omega
  · split
    · refine Ensures.last fun _ => Ensures.last fun _ => Ensures.pure ⟨.work rfl, ?_⟩
      show 3 * remaining.length + 3 + 1 ≤ (Phase.executing t e).weight
      rw [hweight]
      omega
    · refine Ensures.last fun _ => Ensures.pure ⟨.work rfl, ?_⟩
      show 3 * remaining.length + 2 + 1 ≤ (Phase.executing t e).weight
      rw [hweight]
      omega

theorem answerApproval_moves (approved : Bool) (maxRounds : ℕ) :
    StepMoves maxRounds (.approving t e call) (.approvalAnswered approved)
      (answerApproval env t e call approved) := by
  unfold answerApproval
  split
  · refine Ensures.last fun _ => Ensures.pure ⟨.work rfl, ?_⟩
    show 3 * e.remaining.length + 2 + 1 ≤ 3 * e.remaining.length + 3
    omega
  · refine Ensures.bind (refuseCall_remaining env e call _) fun e' he' => Ensures.pure ⟨.work rfl, ?_⟩
    show 3 * e'.remaining.length + 1 + 1 ≤ 3 * e.remaining.length + 3
    rw [he']
    omega

theorem finishTool_moves :
    StepMoves maxRounds (.running t e call) (.toolFinished result) (finishTool env t e call result) := by
  intro m phase' out m' hrun
  obtain ⟨⟨t', e'⟩, out₁, m₁, out₂, hrecord, hpure, -⟩ := bind_eq_some hrun
  have hcounters : t'.counters = t.counters :=
    recordResult_counters env t e call result m _ out₁ m₁ hrecord
  have hremaining : e'.remaining = e.remaining :=
    recordResult_remaining env t e call result m _ out₁ m₁ hrecord
  obtain ⟨rfl, -, -⟩ := by simpa using hpure
  constructor
  · show LoopMove maxRounds (.inside t.counters) _ (.inside t'.counters)
    rw [hcounters]
    exact .work rfl
  · show 3 * e'.remaining.length + 1 + 1 ≤ 3 * e.remaining.length + 2
    rw [hremaining]

/-- Every step of the machine is a move of the loop. -/
theorem advance_moves (phase : Phase) (event : Event) :
    StepMoves env.resolveMaxToolRounds phase event (advance env phase event) := by
  refine advance_cases env (M := StepMoves env.resolveMaxToolRounds) ?_ ?_ ?_ ?_ ?_ ?_ ?_ ?_ ?_ ?_ ?_
    ?_ ?_ ?_ ?_ ?_ ?_ ?_ ?_ ?_ phase event
  · intro phase event m phase' out m' hrun
    cases hrun
  · exact fun content policy context window => sendMessage_moves env content policy context window _
  · exact Ensures.last fun _ => Ensures.last fun _ => Ensures.pure ⟨.cleared, rfl⟩
  · exact fun t => Ensures.last fun _ => Ensures.last fun _ => Ensures.pure ⟨.opening, Nat.le_refl 2⟩
  · exact fun t => compactProactively_moves env t _
  · exact startRound_moves env
  · exact fun t => Ensures.last fun _ => Ensures.pure ⟨.streamOpened, Nat.le_add_left 5 1⟩
  · exact fun t message => streamFailed_moves env t message _
  · intro t r signal m phase' out m' hrun
    obtain ⟨⟨t', r'⟩, out₁, m₁, out₂, hsignal, hpure, -⟩ := bind_eq_some hrun
    have hcounters : t'.counters = t.counters :=
      receiveSignal_counters env t r signal m _ out₁ m₁ hsignal
    have hcalls := receiveSignal_calls env t r signal m _ out₁ m₁ hsignal
    have hlength := length_takeSignal_le r signal
    rw [← hcalls.1] at hlength
    obtain ⟨rfl, -, -⟩ := by simpa using hpure
    constructor
    · show LoopMove _ (.inside t.counters) _ (.inside t'.counters)
      rw [hcounters]
      exact .work rfl
    · show 3 * r'.toolUseBlocks.length + 4 ≤ 3 * r.toolUseBlocks.length + 4 + 3
      have hlength' : r'.toolUseBlocks.length ≤ r.toolUseBlocks.length + 1 := hlength
      omega
  · exact fun t r message => stepMoves_of_idle (returnTurn_idle env _ _ _) (.returned rfl)
      (Nat.le_add_left 1 _)
  · exact fun t r => Ensures.pure ⟨.work rfl, Nat.le_refl _⟩
  · exact fun t r => endRound_moves env t r _
  · exact fun t e _ => Ensures.last fun _ => Ensures.pure ⟨.again rfl, Nat.le_add_left 1 _⟩
  · exact fun t e call remaining h => takeCall_moves env t e call remaining h _
  · exact fun t e call approved => answerApproval_moves env t e call approved _
  · exact fun t e call result => finishTool_moves env t e call result _
  · exact fun t e results _ => Ensures.pure ⟨.work rfl, Nat.le_refl _⟩
  · exact fun t e results _ => Ensures.last fun _ => Ensures.pure ⟨.again rfl, Nat.le_add_left 1 _⟩
  · intro t e call remaining result results hremaining m phase' out m' hrun
    obtain ⟨⟨t', e'⟩, out₁, m₁, out₂, hrecord, hpure, -⟩ := bind_eq_some hrun
    have hcounters : t'.counters = t.counters :=
      recordResult_counters env t { e with remaining } call result m _ out₁ m₁ hrecord
    have hrest : e'.remaining = remaining :=
      recordResult_remaining env t { e with remaining } call result m _ out₁ m₁ hrecord
    obtain ⟨rfl, -, -⟩ := by simpa using hpure
    constructor
    · show LoopMove _ (.inside t.counters) _ (.inside t'.counters)
      rw [hcounters]
      exact .work rfl
    · show e'.remaining.length + 1 + 1 ≤ e.remaining.length + 1
      rw [hrest, hremaining, List.length_cons]
  · intro phase hawait
    refine Ensures.last fun _ => Ensures.pure ⟨.cancelled ?_, ?_⟩
    · cases phase <;> first | rfl | cases hawait
    · cases phase <;> first | exact Nat.le_add_left 1 _ | cases hawait

end Vexcoder.Conversation

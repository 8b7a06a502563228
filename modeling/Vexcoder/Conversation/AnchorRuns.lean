import Vexcoder.Conversation.RequestAnchor
import Vexcoder.Conversation.TurnTokens
import Vexcoder.Conversation.PairingRun

/-!
# The anchor along a run

The machine with a count of the messages that were added behind the user's message of the turn.  Each
step either keeps `turn_user_anchor_index` at that message, or it is one that a run must not take: an
overflow compaction that keeps the index as it is and cuts messages although newer ones than the
user's exist, or a cut that goes past the user's message while it is still recent.
-/

namespace Vexcoder.Conversation

open Base Lib Lib.Emitter Vexcoder.Runtime Vexcoder.Task

variable (env : Environment)

/-! ### The messages that a step adds -/

def Phase.turn? : Phase → Option TurnState
  | .idle => none
  | .condensing t | .compacting t | .roundTop t | .requesting t | .streaming t _ | .roundEnd t _
  | .executing t _ | .approving t _ _ | .running t _ _ | .parallel t _ | .recording t _ _ => some t

/-- No evidence of tools is there where it is needed. -/
def TurnState.missesEvidence (t : TurnState) : Bool :=
  env.client.isLocalEndpoint && t.requiresToolEvidence && !t.sawAnyToolRound

/-- How many messages the step from a phase adds to the history, behind the user's message. -/
def Phase.pushed : Phase → ℕ
  | .roundTop t =>
    if env.resolveMaxToolRounds < t.rounds + 1 && t.finalAnswerAttempted then 0
    else if env.resolveMaxToolRounds < t.rounds + 1 then 1 else 0
  | .roundEnd t r =>
    match roundVerdict env (t.countRound env r.openCalls) r.openCalls r.assistantText with
    | .stop _ => 0
    | .nudge => 2
    | .proceed =>
      if r.openCalls.isEmpty && (t.missesEvidence env && t.forcedToolRetryCount < 2 &&
          t.rounds < env.resolveMaxToolRounds) then 2
      else 1
  | .executing _ e => if e.remaining.isEmpty then 1 else 0
  | .recording _ e results => if e.remaining.isEmpty || results.isEmpty then 1 else 0
  | _ => 0

/-! ### The steps that a run may take -/

/-- The overflow that the code retries. -/
def TurnState.retriesOverflow (t : TurnState) (message : String) : Bool :=
  t.overflowRetryCount < 3 && isContextOverflow message

section Conditions

variable (slack newer : ℕ) (messages : List ApiMessage)

/-- What the prune at the head of the loop is to find, with `newer` messages behind the user's: where it
cuts, the user's message is recent and not cut off, or so many are newer that it may go. -/
def TurnState.PruneSafe (t : TurnState) : Prop :=
  env.resolveHistoryLimits.maxApiMessages < messages.length →
    (newer < env.resolveHistoryLimits.maxApiMessages → t.turnUserAnchorIndex < messages.length ∧
      RequestBetween messages (messages.length - env.resolveHistoryLimits.maxApiMessages)
        t.turnUserAnchorIndex) ∧
    (env.resolveHistoryLimits.maxApiMessages ≤ newer →
      env.resolveHistoryLimits.maxApiMessages + slack ≤ newer)
  deriving Decidable

/-- What an overflow that is retried is to find: where it cuts, the index is preserved or the user's
message is the last one, and it is not cut off. -/
def TurnState.OverflowSafe (t : TurnState) (message : String) : Prop :=
  t.retriesOverflow message = true → newer < messages.length →
    overflowKeepMessages t.overflowRetryCount < messages.length →
      (t.preserveCurrentUserOnOverflow = true ∨ newer = 0) ∧
        (messages.length - overflowKeepMessages t.overflowRetryCount ≤ t.turnUserAnchorIndex →
          RequestBetween messages (messages.length - overflowKeepMessages t.overflowRetryCount)
            t.turnUserAnchorIndex)
  deriving Decidable

end Conditions

/-- The condition on a step, with a slack on how many newer messages let the user's go. -/
def AnchorSafe (slack newer : ℕ) (c : Machine) (event : Event) : Prop :=
  match c.phase, event with
  | .roundTop t, .tick => t.PruneSafe env slack newer c.manager.apiMessages
  | .requesting t, .streamFailed message => t.OverflowSafe newer c.manager.apiMessages message
  | _, _ => True

instance (slack newer : ℕ) (c : Machine) (event : Event) :
    Decidable (AnchorSafe env slack newer c event) := by
  unfold AnchorSafe
  cases c.phase with
  | roundTop t =>
    exact match event with
    | .tick => inferInstance
    | .send .. | .streamOpened | .streamFailed _ | .signal _ | .streamError _ | .streamEnded
    | .approvalAnswered _ | .toolFinished _ | .toolsFinished _ | .cancel | .clear => inferInstance
  | requesting t =>
    exact match event with
    | .streamFailed message => inferInstance
    | .send .. | .tick | .streamOpened | .signal _ | .streamError _ | .streamEnded
    | .approvalAnswered _ | .toolFinished _ | .toolsFinished _ | .cancel | .clear => inferInstance
  | _ => infer_instance

/-! ### The steps -/

/-- The index of the turn in a phase.  The head of the loop prunes, which reads an index behind the end
as that of the last message. -/
def Phase.anchor? (messages : List ApiMessage) : Phase → Option ℕ
  | .roundTop t => some (min t.turnUserAnchorIndex (messages.length - 1))
  | phase => phase.turn?.map TurnState.turnUserAnchorIndex

/-- In front of the loop the user's message is the last one. -/
def Phase.isBeforeLoop : Phase → Bool
  | .condensing _ | .compacting _ => true
  | _ => false

def PhaseAnchored (bound : ℕ) (user : ApiMessage) (newer : ℕ) (phase : Phase)
    (messages : List ApiMessage) : Prop :=
  (∀ anchor, phase.anchor? messages = some anchor → AnchorHolds bound user newer anchor messages) ∧
    (phase.isBeforeLoop = true → newer = 0)

section Steps

variable {bound newer : ℕ} {user : ApiMessage} {anchor : ℕ}

/-- A step to a phase of the turn with the same index, with `pushed` messages added. -/
def AnchorStep (bound : ℕ) (user : ApiMessage) (newer anchor pushed : ℕ)
    (x : Emitter ConversationManager Report Phase) : Prop :=
  Spec unwatched (fun m _ => AnchorHolds bound user newer anchor m.apiMessages) x
    fun phase' m _ => PhaseAnchored bound user (newer + pushed) phase' m.apiMessages

theorem anchored_idle (messages : List ApiMessage) :
    PhaseAnchored bound user newer .idle messages := ⟨nofun, nofun⟩

theorem AnchorStep.of_idle {pushed : ℕ} {x : Emitter ConversationManager Report Phase}
    (h : Ensures x fun phase => phase = .idle) : AnchorStep bound user newer anchor pushed x := by
  intro m mon phase' out m' _ hrun
  obtain rfl := h m phase' out m' hrun
  exact ⟨(), watch_of_ignored fun _ _ => rfl, anchored_idle _⟩

theorem AnchorStep.quiet {α : Type} {pushed : ℕ} {x : Emitter ConversationManager Report α}
    {f : α → Emitter ConversationManager Report Phase} (hx : Quiet x)
    (hf : ∀ a, AnchorStep bound user newer anchor pushed (f a)) :
    AnchorStep bound user newer anchor pushed (x >>= f) := by
  refine Spec.bind (hx.spec (I := fun m _ => AnchorHolds bound user newer anchor m.apiMessages)
    (fun _ _ => rfl) fun m m' _ hkept hm => ?_) hf
  have hmessages : m'.apiMessages = m.apiMessages := congrArg Kept.messages hkept
  rw [hmessages]
  exact hm

theorem AnchorStep.push {pushed : ℕ} {message : ApiMessage}
    {f : Unit → Emitter ConversationManager Report Phase}
    (hf : ∀ a, AnchorStep bound user (newer + 1) anchor pushed (f a)) :
    AnchorStep bound user newer anchor (pushed + 1) (pushMessage message >>= f) := by
  have hadd : newer + (pushed + 1) = newer + 1 + pushed := by omega
  unfold AnchorStep
  rw [hadd]
  have hpush : Spec unwatched (fun m _ => AnchorHolds bound user newer anchor m.apiMessages)
      (pushMessage message) fun _ m _ => AnchorHolds bound user (newer + 1) anchor m.apiMessages :=
    Spec.modify fun m _ hm => AnchorHolds.push hm message
  exact Spec.bind hpush hf

theorem anchored_of_turn {messages : List ApiMessage} {phase : Phase} {t : TurnState}
    (hturn : phase.turn? = some t) (hloop : phase.isBeforeLoop = false)
    (h : AnchorHolds bound user newer t.turnUserAnchorIndex messages) :
    PhaseAnchored bound user newer phase messages := by
  refine ⟨fun anchor hanchor => ?_, fun hbefore => ?_⟩
  · cases phase with
    | roundTop t' =>
      obtain rfl := Option.some.inj hturn
      obtain rfl := Option.some.inj hanchor
      exact h.clamp
    | _ =>
      simp only [Phase.anchor?, hturn, Option.map_some, Option.some.injEq] at hanchor
      subst hanchor
      exact h
  · rw [hloop] at hbefore
    cases hbefore

theorem AnchorStep.pure {phase : Phase} {t : TurnState} (hturn : phase.turn? = some t)
    (hanchor : t.turnUserAnchorIndex = anchor) (hloop : phase.isBeforeLoop = false) :
    AnchorStep bound user newer anchor 0 (pure phase) := by
  refine Spec.pure fun m _ hm => anchored_of_turn hturn hloop ?_
  rw [hanchor]
  exact hm

theorem spec_emit {P : ConversationManager → Prop} (report : Report) :
    Spec unwatched (fun m _ => P m) (emit report) fun _ m _ => P m :=
  Spec.emit fun _ _ hm => ⟨(), rfl, hm⟩

theorem spec_setMessages {P : ConversationManager → Prop} {anchor' : ℕ} {messages : List ApiMessage}
    {g : Emitter ConversationManager Report Phase} {Q : Phase → ConversationManager → Unit → Prop}
    {m₀ : ConversationManager} (hset : P m₀ → AnchorHolds bound user newer anchor' messages)
    (hg : Spec unwatched (fun m _ => AnchorHolds bound user newer anchor' m.apiMessages) g Q) :
    Spec unwatched (fun m _ => m = m₀ ∧ P m) (setMessages messages >>= fun _ => g) Q := by
  refine Spec.bind (R := fun _ m _ => AnchorHolds bound user newer anchor' m.apiMessages)
    (Spec.modify fun m _ hm => ?_) fun _ => hg
  obtain ⟨rfl, hp⟩ := hm
  exact hset hp

variable (t : TurnState) (e : ToolRound) (call : ToolCall) (result : Except String String)

theorem anchor_countRound (blocks : List ContentBlock) :
    (t.countRound env blocks).turnUserAnchorIndex = t.turnUserAnchorIndex := by
  unfold TurnState.countRound
  split <;> rfl

theorem anchor_noteRead : (t.noteRead call result).turnUserAnchorIndex = t.turnUserAnchorIndex := by
  unfold TurnState.noteRead
  split
  · split <;> rfl
  · rfl

theorem recordResult_anchor :
    Ensures (recordResult env t e call result) fun res =>
      res.1.turnUserAnchorIndex = t.turnUserAnchorIndex :=
  Ensures.last fun _ => Ensures.last fun _ => Ensures.last fun _ =>
    Ensures.pure (anchor_noteRead t call result)

theorem receiveSignal_anchor (r : RoundState) (signal : RuntimeSignal) :
    Ensures (receiveSignal env t r signal) fun res =>
      res.1.turnUserAnchorIndex = t.turnUserAnchorIndex := by
  cases hreports : reportsUsage signal with
  | false =>
    intro m res out m' hrun
    rw [(receiveSignal_keeps_tokens env t r hreports m res out m' hrun).1]
  | true =>
    cases signal with
    | usageUpdated usage => exact Ensures.pure rfl
    | pulseEnd status usage changedFiles =>
      simp only [receiveSignal]
      split <;> exact Ensures.pure rfl
    | _ => cases hreports

theorem recordResult_anchored :
    Spec unwatched
      (fun m _ => AnchorHolds bound user newer t.turnUserAnchorIndex m.apiMessages)
      (recordResult env t e call result) fun res m _ =>
        AnchorHolds bound user newer res.1.turnUserAnchorIndex m.apiMessages := by
  have hkeeps : Leaves ConversationManager.apiMessages (fun _ => True)
      (recordResult env t e call result) := by
    have hquiet : ∀ {α : Type} {x : Emitter ConversationManager Report α}, Quiet x →
        Leaves ConversationManager.apiMessages (fun _ => True) x := by
      intro α x hx m a out m' hrun
      exact ⟨congrArg Kept.messages (hx m a out m' hrun).1, fun _ _ => trivial⟩
    refine Leaves.bind (hquiet (quiet_setToolCallStatus env _ _)) fun _ => ?_
    refine Leaves.bind (hquiet (quiet_pushToolResultBlock env _ _ _)) fun _ => ?_
    refine Leaves.bind (Leaves.bind Leaves.read fun m => ?_) fun _ => Leaves.pure _
    refine Leaves.bind (Leaves.forSome fun _ => Leaves.emit trivial) fun _ => ?_
    exact Leaves.bind (Leaves.modify fun _ => rfl) fun _ => Leaves.pure _
  intro m mon res out m' hm hrun
  refine ⟨(), watch_of_ignored fun _ _ => rfl, ?_⟩
  show AnchorHolds bound user newer res.1.turnUserAnchorIndex m'.apiMessages
  rw [recordResult_anchor env t e call result m res out m' hrun, (hkeeps m res out m' hrun).1]
  exact hm

theorem returnGuarded_anchored {pushed : ℕ} (message : String) :
    AnchorStep bound user newer anchor pushed (returnGuarded env message) :=
  AnchorStep.of_idle (returnGuarded_idle env _)

theorem finishCalls_anchored : AnchorStep bound user newer t.turnUserAnchorIndex 1 (finishCalls t e) :=
  AnchorStep.push fun _ => AnchorStep.pure rfl rfl rfl

theorem takeCall_anchored : AnchorStep bound user newer t.turnUserAnchorIndex 0 (takeCall env t e call) := by
  unfold takeCall
  split
  · exact AnchorStep.quiet (quiet_refuseCall env _ _ _) fun _ => AnchorStep.pure rfl rfl rfl
  split
  · refine AnchorStep.quiet (quiet_setToolCallStatus env _ _) fun _ => ?_
    exact AnchorStep.quiet (quiet_emitStreamUpdate _) fun _ => AnchorStep.pure rfl rfl rfl
  · exact AnchorStep.quiet (quiet_setToolCallStatus env _ _) fun _ =>
      AnchorStep.pure rfl rfl rfl

theorem answerApproval_anchored (approved : Bool) :
    AnchorStep bound user newer t.turnUserAnchorIndex 0 (answerApproval env t e call approved) := by
  cases approved with
  | true =>
    exact AnchorStep.quiet (quiet_setToolCallStatus env _ _) fun _ => AnchorStep.pure rfl rfl rfl
  | false => exact AnchorStep.quiet (quiet_denyCall env _ _) fun _ => AnchorStep.pure rfl rfl rfl

theorem startCalls_anchored (blocks : List ContentBlock) (useStructuredRound : Bool) :
    AnchorStep bound user newer t.turnUserAnchorIndex 0 (startCalls env t blocks useStructuredRound) := by
  unfold startCalls
  split
  · refine AnchorStep.quiet (Leaves.forEach fun call => ?_) fun _ => AnchorStep.pure rfl rfl rfl
    exact quiet_setToolCallStatus env _ _
  · exact AnchorStep.pure rfl rfl rfl

theorem endWithoutCalls_anchored (text : String) :
    AnchorStep bound user newer t.turnUserAnchorIndex
      (if t.missesEvidence env && t.forcedToolRetryCount < 2 && t.rounds < env.resolveMaxToolRounds
        then 1 else 0) (endWithoutCalls env t text) := by
  unfold endWithoutCalls TurnState.missesEvidence
  by_cases hretry : (env.client.isLocalEndpoint && t.requiresToolEvidence && !t.sawAnyToolRound &&
      decide (t.forcedToolRetryCount < 2) && decide (t.rounds < env.resolveMaxToolRounds)) = true
  · rw [if_pos hretry, if_pos hretry]
    exact AnchorStep.push fun _ => AnchorStep.pure rfl rfl rfl
  rw [if_neg hretry, if_neg hretry]
  split
  · exact returnGuarded_anchored env _
  · refine AnchorStep.of_idle (Ensures.last fun _ => Ensures.last fun _ => ?_)
    exact returnTurn_idle env _ _ _

/-- A round without calls counts nothing that matters to the way on. -/
theorem countRound_of_isEmpty {t : TurnState} {blocks : List ContentBlock} (h : blocks.isEmpty = true) :
    (t.countRound env blocks).missesEvidence env = t.missesEvidence env ∧
      (t.countRound env blocks).forcedToolRetryCount = t.forcedToolRetryCount ∧
      (t.countRound env blocks).rounds = t.rounds := by
  rw [TurnState.countRound, if_pos h]
  exact ⟨rfl, rfl, rfl⟩

theorem endRound_anchored (r : RoundState) :
    AnchorStep bound user newer t.turnUserAnchorIndex (Phase.pushed env (.roundEnd t r))
      (endRound env t r) := by
  have hanchor := anchor_countRound env t r.openCalls
  unfold endRound Phase.pushed
  dsimp only
  cases hverdict : roundVerdict env (t.countRound env r.openCalls) r.openCalls r.assistantText with
  | stop message => exact returnGuarded_anchored env message
  | nudge =>
    exact AnchorStep.push fun _ => AnchorStep.push fun _ => AnchorStep.pure rfl hanchor rfl
  | proceed =>
    dsimp only
    cases hblocks : r.openCalls.isEmpty with
    | true =>
      obtain ⟨hmisses, hforced, hrounds⟩ := countRound_of_isEmpty env (t := t) hblocks
      have hend : AnchorStep bound user (newer + 1) _ _ (endWithoutCalls env
          { t.countRound env r.openCalls with lastAssistantTextForHistory := r.assistantText }
          r.assistantText) := endWithoutCalls_anchored env _ _
      have hmisses' : TurnState.missesEvidence env { t.countRound env r.openCalls with
          lastAssistantTextForHistory := r.assistantText } = t.missesEvidence env := hmisses
      rw [hmisses', hforced, hrounds, hanchor] at hend
      rw [Bool.true_and]
      split
      · rename_i hretry
        rw [if_pos hretry] at hend
        exact AnchorStep.push fun _ => hend
      · rename_i hretry
        rw [if_neg hretry] at hend
        exact AnchorStep.push fun _ => hend
    | false =>
      have hstart : AnchorStep bound user (newer + 1) _ _ (startCalls env
          { t.countRound env r.openCalls with lastAssistantTextForHistory := r.assistantText }
          r.openCalls (r.useStructuredRound env)) := startCalls_anchored env _ _ _
      rw [hanchor] at hstart
      exact AnchorStep.push fun _ => hstart

end Steps

/-! ### The steps that shift the history -/

section Shifts

variable {slack newer : ℕ} {user : ApiMessage}

/-- The newer messages with which the user's message may be gone. -/
def recentBound (slack : ℕ) : ℕ := env.resolveHistoryLimits.maxApiMessages + slack

variable {bound : ℕ}

theorem condenseOld_anchored (hbound : 1 ≤ bound) (t : TurnState) :
    Spec unwatched (fun m _ => AnchorHolds bound user 0 t.turnUserAnchorIndex m.apiMessages)
      (condenseOld env t) fun phase' m _ => PhaseAnchored bound user 0 phase' m.apiMessages := by
  have hset : ∀ messages, AnchorHolds bound user 0 t.turnUserAnchorIndex messages →
      AnchorHolds bound user 0 t.turnUserAnchorIndex
        (condenseOldToolResults messages env.resolveHistoryKeepTurns) := by
    intro messages hholds
    rcases hholds with hdes | ⟨-, hzero⟩
    · exact Or.inl (hdes.condenseOld _)
    · omega
  refine Spec.read fun m₀ => spec_setMessages (hset m₀.apiMessages)
    (Spec.pure fun m _ hm => ⟨fun anchor hanchor => ?_, fun _ => rfl⟩)
  obtain rfl := Option.some.inj hanchor
  exact hm

theorem compactProactively_anchored (hbound : 1 ≤ bound) (t : TurnState) :
    Spec unwatched (fun m _ => AnchorHolds bound user 0 t.turnUserAnchorIndex m.apiMessages)
      (compactProactively env t) fun phase' m _ => PhaseAnchored bound user 0 phase' m.apiMessages := by
  have hset : ∀ m : ConversationManager, AnchorHolds bound user 0 t.turnUserAnchorIndex m.apiMessages →
      AnchorHolds bound user 0
        (min t.turnUserAnchorIndex ((proactiveCompaction env m t).1.length - 1))
        (proactiveCompaction env m t).1 := by
    intro m hholds
    rcases hholds with hdes | ⟨-, hzero⟩
    · exact Or.inl (hdes.compact rfl)
    · omega
  refine Spec.read fun m₀ => ?_
  refine Spec.bind (R := fun _ (m : ConversationManager) _ => AnchorHolds bound user 0
    (min t.turnUserAnchorIndex (m.apiMessages.length - 1)) m.apiMessages)
    (Spec.modify fun m _ hm => ?_) fun _ => ?_
  · obtain ⟨rfl, hholds⟩ := hm
    exact hset _ hholds
  · have htop : ∀ t' : TurnState, t'.turnUserAnchorIndex = t.turnUserAnchorIndex →
        Spec unwatched (fun (m : ConversationManager) _ => AnchorHolds bound user 0
          (min t.turnUserAnchorIndex (m.apiMessages.length - 1)) m.apiMessages)
        (pure (Phase.roundTop t')) fun phase' m _ => PhaseAnchored bound user 0 phase' m.apiMessages := by
      intro t' hsame
      refine Spec.pure fun m _ hm => ⟨fun anchor hanchor => ?_, nofun⟩
      obtain rfl := Option.some.inj hanchor
      rw [hsame]
      exact hm
    cases (proactiveCompaction env m₀ t).2 with
    | none => exact htop t rfl
    | some counts => exact Spec.bind (spec_emit _) fun _ => htop _ rfl

theorem spec_pushIf {anchor : ℕ} (c : Bool) (message : ApiMessage) :
    Spec unwatched (fun m _ => AnchorHolds bound user newer anchor m.apiMessages)
      (onlyIf c (pushMessage message)) fun _ m _ =>
        AnchorHolds bound user (newer + if c then 1 else 0) anchor m.apiMessages := by
  cases c with
  | false => exact Spec.pure fun _ _ hm => hm
  | true => exact Spec.modify fun _ _ hm => AnchorHolds.push hm message

theorem startRound_anchored (t : TurnState) :
    Spec unwatched
      (fun m _ => AnchorHolds (recentBound env slack) user newer
          (min t.turnUserAnchorIndex (m.apiMessages.length - 1)) m.apiMessages ∧
        t.PruneSafe env slack newer m.apiMessages)
      (startRound env t) fun phase' m _ => PhaseAnchored (recentBound env slack) user
        (newer + Phase.pushed env (.roundTop t)) phase' m.apiMessages := by
  have hset : ∀ m : ConversationManager,
      AnchorHolds (recentBound env slack) user newer
          (min t.turnUserAnchorIndex (m.apiMessages.length - 1)) m.apiMessages ∧
        t.PruneSafe env slack newer m.apiMessages →
      AnchorHolds (recentBound env slack) user newer
        (pruneMessageHistoryPreserving m.apiMessages env.resolveHistoryLimits.maxApiMessages
          t.turnUserAnchorIndex).2
        (pruneMessageHistoryPreserving m.apiMessages env.resolveHistoryLimits.maxApiMessages
          t.turnUserAnchorIndex).1 :=
    fun m hm => hm.1.prune (maxApiMessages_pos env) hm.2
  refine Spec.bind (R := fun _ m _ => AnchorHolds (recentBound env slack) user newer
      (min t.turnUserAnchorIndex ((ConversationManager.apiMessages m).length - 1)) m.apiMessages ∧
    t.PruneSafe env slack newer m.apiMessages) (Spec.modify fun _ _ hm => hm) fun _ =>
      Spec.read fun m₀ => ?_
  have hpruned := hset m₀
  generalize pruneMessageHistoryPreserving m₀.apiMessages env.resolveHistoryLimits.maxApiMessages
    t.turnUserAnchorIndex = pruned at hpruned ⊢
  obtain ⟨messages, anchor⟩ := pruned
  refine spec_setMessages hpruned ?_
  unfold Phase.pushed
  dsimp only
  split
  · intro m mon phase' out m' _ hrun
    obtain rfl := (Ensures.last fun _ => returnTurn_idle env _ _ _) m phase' out m' hrun
    exact ⟨(), watch_of_ignored fun _ _ => rfl, anchored_idle _⟩
  · refine Spec.bind (spec_pushIf _ _) fun _ => Spec.read_any fun m => ?_
    have hloop : ∀ t' : TurnState, t'.turnUserAnchorIndex = anchor →
        AnchorStep (recentBound env slack) user
          (newer + if env.resolveMaxToolRounds < t.rounds + 1 then 1 else 0) anchor 0
          (do emit (.request m.apiMessages); pure (.requesting t')) :=
      fun t' hsame => Spec.bind (spec_emit _) fun _ => AnchorStep.pure (t := t') rfl hsame rfl
    simpa only [AnchorStep, Nat.add_zero, decide_eq_true_eq] using hloop _ rfl

theorem streamFailed_anchored (t : TurnState) (message : String) :
    Spec unwatched
      (fun m _ => AnchorHolds bound user newer t.turnUserAnchorIndex m.apiMessages ∧
        t.OverflowSafe newer m.apiMessages message)
      (streamFailed env t message) fun phase' m _ =>
        PhaseAnchored bound user newer phase' m.apiMessages := by
  have hkeep : max (overflowKeepMessages t.overflowRetryCount) 1 =
      overflowKeepMessages t.overflowRetryCount :=
    Nat.max_eq_left (overflowKeepMessages_pos t.overflowRetryCount)
  unfold streamFailed
  split
  · rename_i hretry
    have hretries : t.retriesOverflow message = true := hretry
    have hset : ∀ m : ConversationManager,
        AnchorHolds bound user newer t.turnUserAnchorIndex m.apiMessages ∧
          t.OverflowSafe newer m.apiMessages message →
        AnchorHolds bound user newer
          (min (if t.preserveCurrentUserOnOverflow then
            (compactForContextOverflowPreserving m.apiMessages
              (overflowKeepMessages t.overflowRetryCount) (t.overflowPreserveIndex m.apiMessages)).2
          else t.turnUserAnchorIndex)
            ((compactForContextOverflowPreserving m.apiMessages
              (overflowKeepMessages t.overflowRetryCount)
              (t.overflowPreserveIndex m.apiMessages)).1.length - 1))
          (compactForContextOverflowPreserving m.apiMessages
            (overflowKeepMessages t.overflowRetryCount) (t.overflowPreserveIndex m.apiMessages)).1 := by
      intro m hm
      obtain ⟨hholds, hsafe⟩ := hm
      have hcuts := hsafe hretries
      cases hpreserve : t.preserveCurrentUserOnOverflow with
      | true =>
        rw [TurnState.overflowPreserveIndex, hpreserve, if_pos rfl]
        refine (hholds.overflow fun hlong hnewer htarget => ?_).clamp
        rw [hkeep] at hlong htarget ⊢
        exact (hcuts hnewer hlong).2 htarget
      | false =>
        rw [TurnState.overflowPreserveIndex, hpreserve, if_neg (by decide)]
        refine hholds.overflow_unpreserved fun hlong hnewer => ?_
        rw [hkeep] at hlong ⊢
        obtain ⟨hlast, hrequest⟩ := hcuts hnewer hlong
        rw [hpreserve] at hlast
        have hzero : newer = 0 := hlast.resolve_left (by decide)
        refine ⟨hzero, hrequest ?_⟩
        -- the user's message is the last one
        rcases hholds with hdes | ⟨hgone, -⟩
        · have hposition := hdes.position
          omega
        · exact absurd hnewer (Nat.not_lt.mpr hgone)
    refine Spec.read fun m₀ => ?_
    refine Spec.bind (R := fun _ (m : ConversationManager) _ => AnchorHolds bound user newer
      (min (if t.preserveCurrentUserOnOverflow then
        (compactForContextOverflowPreserving m₀.apiMessages
          (overflowKeepMessages t.overflowRetryCount) (t.overflowPreserveIndex m₀.apiMessages)).2
      else t.turnUserAnchorIndex) (m.apiMessages.length - 1)) m.apiMessages)
      (Spec.modify fun m _ hm => ?_) fun _ => ?_
    · obtain ⟨rfl, hm⟩ := hm
      exact hset _ hm
    · refine Spec.bind (spec_emit _) fun _ => ?_
      refine Spec.pure fun m _ hm => ⟨fun anchor hanchor => ?_, nofun⟩
      obtain rfl := Option.some.inj hanchor
      exact hm
  · have hidle : AnchorStep bound user newer t.turnUserAnchorIndex 0
        (returnTurn env (.failed message) t.turnTokens (.error message)) :=
      AnchorStep.of_idle (returnTurn_idle env _ _ _)
    exact Spec.conseq hidle (fun _ _ hm => hm.1) fun _ _ _ h => h

end Shifts

/-! ### The beginning of a turn -/

def turnMessage (content : String) (sharedPrefixContext : Option String) : ApiMessage :=
  { role := "user", content := .text content
    cacheHint := sharedPrefixCacheHint env sharedPrefixContext }

theorem spec_any {α : Type} (x : Emitter ConversationManager Report α) :
    Spec unwatched (fun _ _ => True) x fun _ _ _ => True :=
  fun _ _ _ _ _ _ _ => ⟨(), watch_of_ignored fun _ _ => rfl, trivial⟩

theorem openTurn_anchored {bound : ℕ} (content : String) (policy : PulseToolPolicy)
    (context : Option String) (window : ℕ) :
    Spec unwatched (fun _ _ => True) (openTurn env content policy context window) fun phase' m _ =>
      PhaseAnchored bound (turnMessage env content context) 0 phase' m.apiMessages := by
  have hpush : ∀ messages : List ApiMessage, Designates (turnMessage env content context) 0
      ((messages ++ [turnMessage env content context]).length - 1)
      (messages ++ [turnMessage env content context]) := by
    intro messages
    rw [List.length_append, List.length_singleton, Nat.add_sub_cancel]
    refine ⟨by rw [List.length_append]; rfl, content, content, rfl, .same, ?_⟩
    rw [List.getElem?_append_right (Nat.le_refl _), Nat.sub_self]
    rfl
  refine Spec.bind (spec_any _) fun _ => ?_
  refine Spec.bind (R := fun _ (m : ConversationManager) _ =>
    Designates (turnMessage env content context) 0 (m.apiMessages.length - 1) m.apiMessages)
    (Spec.modify fun m _ _ => hpush m.apiMessages) fun _ => ?_
  cases builtinSupportedGitToolsResponse content with
  | some response =>
    intro m mon phase' out m' _ hrun
    obtain rfl := (Ensures.last fun _ => Ensures.last fun _ => returnTurn_idle env _ _ _) m phase' out m' hrun
    exact ⟨(), watch_of_ignored fun _ _ => rfl, anchored_idle _⟩
  | none =>
    refine Spec.read fun m₀ => Spec.pure fun m _ hm => ⟨fun anchor hanchor => ?_, fun _ => rfl⟩
    obtain ⟨rfl, hdes⟩ := hm
    obtain rfl := Option.some.inj hanchor
    exact Or.inl hdes

theorem sendMessage_anchored {bound : ℕ} (content : String) (policy : PulseToolPolicy)
    (context : Option String) (window : ℕ) :
    Spec unwatched (fun _ _ => True) (sendMessage env content policy context window)
      fun phase' m _ => PhaseAnchored bound (turnMessage env content context) 0 phase' m.apiMessages := by
  refine Spec.bind (spec_any _) fun _ => Spec.bind (spec_any _) fun _ => Spec.bind (spec_any _)
    fun begun => ?_
  cases begun with
  | true => exact openTurn_anchored env content policy context window
  | false => exact Spec.bind (spec_any _) fun _ => Spec.pure fun _ _ _ => anchored_idle _

/-! ### Whole runs -/

section Runs

variable {slack newer : ℕ} {user : ApiMessage}

theorem AnchorStep.within {bound : ℕ} {C : ConversationManager → Prop} {phase : Phase} {t : TurnState}
    {x : Emitter ConversationManager Report Phase}
    (hphase : ∀ messages, phase.anchor? messages = some t.turnUserAnchorIndex)
    (h : AnchorStep bound user newer t.turnUserAnchorIndex (phase.pushed env) x) :
    Spec unwatched (fun m _ => PhaseAnchored bound user newer phase m.apiMessages ∧ C m) x
      fun phase' m _ => PhaseAnchored bound user (newer + phase.pushed env) phase' m.apiMessages :=
  Spec.conseq h (fun m _ hm => hm.1.1 _ (hphase m.apiMessages)) fun _ _ _ h => h

/-- **One step** of a call that is allowed keeps the index at the user's message. -/
theorem advance_anchored (phase : Phase) (event : Event) :
    phase ≠ .idle → Spec unwatched
      (fun m _ => PhaseAnchored (recentBound env slack) user newer phase m.apiMessages ∧
        AnchorSafe env slack newer { manager := m, phase } event)
      (advance env phase event) fun phase' m _ =>
        PhaseAnchored (recentBound env slack) user (newer + phase.pushed env) phase' m.apiMessages := by
  have hbound : 1 ≤ recentBound env slack := Nat.le_add_right_of_le (maxApiMessages_pos env)
  have hresult : ∀ (t : TurnState) (e : ToolRound) (call : ToolCall) (result : Except String String)
      (f : TurnState × ToolRound → Phase), (∀ res, (f res).turn? = some res.1) →
        (∀ res, (f res).isBeforeLoop = false) →
      AnchorStep (recentBound env slack) user newer t.turnUserAnchorIndex 0
        (recordResult env t e call result >>= fun res => pure (f res)) := by
    intro t e call result f hturn hloop
    refine Spec.bind (recordResult_anchored env t e call result) fun res => ?_
    exact Spec.pure fun m _ hm => anchored_of_turn (hturn res) (hloop res) hm
  refine advance_cases env
    (M := fun phase event x => phase ≠ .idle → Spec unwatched
      (fun m _ => PhaseAnchored (recentBound env slack) user newer phase m.apiMessages ∧
        AnchorSafe env slack newer { manager := m, phase } event) x
      fun phase' m _ =>
        PhaseAnchored (recentBound env slack) user (newer + phase.pushed env) phase' m.apiMessages)
    ?crash ?send ?clear ?condensing ?compacting ?roundTop ?opened ?failed ?signal ?streamError ?ended
    ?roundEnd ?callsDone ?call ?approval ?tool ?tools ?recorded ?record ?cancel phase event
  case crash => exact fun _ _ _ => Spec.crash
  case send => exact fun _ _ _ _ h => absurd rfl h
  case clear => exact fun h => absurd rfl h
  case condensing =>
    intro t _ m mon phase' out m' hm hrun
    obtain rfl := hm.1.2 rfl
    exact condenseOld_anchored env hbound t m mon phase' out m' (hm.1.1 _ rfl) hrun
  case compacting =>
    intro t _ m mon phase' out m' hm hrun
    obtain rfl := hm.1.2 rfl
    exact compactProactively_anchored env hbound t m mon phase' out m' (hm.1.1 _ rfl) hrun
  case roundTop =>
    exact fun t _ => Spec.conseq (startRound_anchored env t) (fun m _ hm => ⟨hm.1.1 _ rfl, hm.2⟩)
      fun _ _ _ h => h
  case opened =>
    exact fun t _ => AnchorStep.within env (fun _ => rfl)
      (Spec.bind (spec_emit _) fun _ => AnchorStep.pure rfl rfl rfl)
  case failed =>
    exact fun t message _ => Spec.conseq (streamFailed_anchored env t message)
      (fun m _ hm => ⟨hm.1.1 _ rfl, hm.2⟩) fun _ _ _ h => h
  case signal =>
    intro t r signal _
    refine AnchorStep.within env (fun _ => rfl) ?_
    have hkeeps : Spec unwatched
        (fun m _ => AnchorHolds (recentBound env slack) user newer t.turnUserAnchorIndex m.apiMessages)
        (receiveSignal env t r signal) fun res m _ =>
          res.1.turnUserAnchorIndex = t.turnUserAnchorIndex ∧
            AnchorHolds (recentBound env slack) user newer t.turnUserAnchorIndex m.apiMessages := by
      refine Spec.ensures ?_ (receiveSignal_anchor env t r signal)
      refine (quiet_receiveSignal env t r signal).spec (fun _ _ => rfl) fun m m' _ hkept hm => ?_
      rw [show m'.apiMessages = m.apiMessages from congrArg Kept.messages hkept]
      exact hm
    refine Spec.bind hkeeps fun res => Spec.pure fun m _ hm => anchored_of_turn (t := res.1) rfl rfl ?_
    rw [hm.1]
    exact hm.2
  case streamError =>
    exact fun t r message _ => AnchorStep.within env (fun _ => rfl)
      (AnchorStep.of_idle (returnTurn_idle env _ _ _))
  case ended =>
    exact fun t r _ => AnchorStep.within env (fun _ => rfl) (AnchorStep.pure rfl rfl rfl)
  case roundEnd =>
    exact fun t r _ => AnchorStep.within env (fun _ => rfl) (endRound_anchored env t r)
  case callsDone =>
    intro t e hremaining _
    refine AnchorStep.within env (t := t) (fun _ => rfl) ?_
    rw [Phase.pushed, hremaining]
    exact finishCalls_anchored t e
  case call =>
    intro t e call remaining hremaining _
    refine AnchorStep.within env (t := t) (fun _ => rfl) ?_
    rw [Phase.pushed, hremaining]
    exact takeCall_anchored env t _ call
  case approval =>
    exact fun t e call approved _ => AnchorStep.within env (fun _ => rfl)
      (answerApproval_anchored env t e call approved)
  case tool =>
    exact fun t e call result _ => AnchorStep.within env (fun _ => rfl)
      (hresult t e call result (fun res => .executing res.1 res.2) (fun _ => rfl) fun _ => rfl)
  case tools =>
    exact fun t e results _ _ => AnchorStep.within env (fun _ => rfl) (AnchorStep.pure rfl rfl rfl)
  case recorded =>
    intro t e results hempty _
    refine AnchorStep.within env (t := t) (fun _ => rfl) ?_
    have hpushed : Phase.pushed env (.recording t e results) = 1 := by
      rcases hempty with h | h <;> simp [Phase.pushed, h]
    rw [hpushed]
    exact finishCalls_anchored t e
  case record =>
    intro t e call remaining result results hremaining _
    refine AnchorStep.within env (t := t) (fun _ => rfl) ?_
    have hpushed : Phase.pushed env (.recording t e (result :: results)) = 0 := by
      simp [Phase.pushed, hremaining]
    rw [hpushed]
    exact hresult t { e with remaining } call result (fun res => .recording res.1 res.2 results)
      (fun _ => rfl) fun _ => rfl
  case cancel =>
    intro phase _ _ m mon phase' out m' _ hrun
    have hidle : Ensures (do emit .cancelled; pure .idle : Emitter ConversationManager Report Phase)
        fun phase => phase = .idle := Ensures.last fun _ => Ensures.pure rfl
    obtain rfl := hidle m phase' out m' hrun
    exact ⟨(), watch_of_ignored fun _ _ => rfl, anchored_idle _⟩

/-- The machine, with the number of messages behind the user's. -/
structure CountedMachine where
  machine : Machine
  newer : ℕ := 0

def countedStep (event : Event) : Emitter CountedMachine Report Unit := fun g =>
  match step env event g.machine with
  | none => none
  | some (_, reports, machine) =>
    some ((), reports, { machine, newer := g.newer + g.machine.phase.pushed env })

variable {g : CountedMachine}

theorem step_of_countedStep {event : Event} {g' : CountedMachine} {out : List Report}
    (h : countedStep env event g = some ((), out, g')) :
    step env event g.machine = some ((), out, g'.machine) ∧
      g'.newer = g.newer + g.machine.phase.pushed env := by
  unfold countedStep at h
  split at h
  · cases h
  · rename_i hstep
    obtain ⟨rfl, rfl⟩ := by simpa using h
    exact ⟨hstep, rfl⟩

theorem counted_run {events : List Event} {reports : List Report} {c : Machine}
    (hrun : run env events g.machine = some ((), reports, c)) :
    ∃ newer, forEach events (countedStep env) g = some ((), reports, { machine := c, newer }) := by
  induction events generalizing g reports with
  | nil =>
    obtain ⟨rfl, rfl⟩ := by simpa [run, forEach] using hrun
    exact ⟨g.newer, rfl⟩
  | cons event events ih =>
    obtain ⟨⟨⟩, out, c₁, out', hstep, hrest, rfl⟩ := bind_eq_some hrun
    have hcounted : countedStep env event g =
        some ((), out, { machine := c₁, newer := g.newer + g.machine.phase.pushed env }) := by
      rw [countedStep, hstep]
    obtain ⟨newer, hlater⟩ :=
      ih (g := { machine := c₁, newer := g.newer + g.machine.phase.pushed env }) hrest
    refine ⟨newer, ?_⟩
    rw [forEach, bind_of_some hcounted, hlater]
    rfl

def AnchorSafeRun (slack : ℕ) (g : CountedMachine) (events : List Event) : Prop :=
  Meets (fun _ g event => AnchorSafe env slack g.newer g.machine event) (countedStep env) [] g events
  deriving Decidable

/-- **A run** within a call whose steps are allowed keeps the index at the user's message. -/
theorem anchored_run {events : List Event} (hcalls : ∀ event ∈ events, event.isBetweenCalls = false)
    {g' : CountedMachine} {past reports : List Report}
    (hanchored : PhaseAnchored (recentBound env slack) user g.newer g.machine.phase
      g.machine.manager.apiMessages)
    (hsafe : Meets (fun _ g event => AnchorSafe env slack g.newer g.machine event) (countedStep env)
      past g events) (hrun : forEach events (countedStep env) g = some ((), reports, g')) :
    PhaseAnchored (recentBound env slack) user g'.newer g'.machine.phase
      g'.machine.manager.apiMessages := by
  induction events generalizing g past reports with
  | nil =>
    obtain ⟨-, rfl⟩ := by simpa [forEach] using hrun
    exact hanchored
  | cons event events ih =>
    obtain ⟨⟨⟩, out, g₁, out', hstep, hrest, -⟩ := bind_eq_some hrun
    obtain ⟨hmachine, hnewer⟩ := step_of_countedStep env hstep
    have hadvance := advance_of_step env hmachine
    have hwithin : g.machine.phase ≠ .idle := by
      intro hidle
      have hcall := hcalls event List.mem_cons_self
      rw [hidle] at hadvance
      cases event with
      | send => cases hcall
      | clear => cases hcall
      | _ => cases hadvance
    obtain ⟨-, -, hafter⟩ := advance_anchored env g.machine.phase event hwithin g.machine.manager ()
      g₁.machine.phase out g₁.machine.manager ⟨hanchored, hsafe.1⟩ hadvance
    rw [← hnewer] at hafter
    exact ih (fun other h => hcalls other (List.mem_cons_of_mem event h)) hafter (hsafe.2 out g₁ hstep) hrest

end Runs

/-- **The current request survives**: in every run of a call whose steps are allowed, the index of the
turn is that of the user's message, or so many newer messages exist that it may be gone. -/
theorem turn_anchor_survives (slack : ℕ) (m : ConversationManager) (content : String)
    (policy : PulseToolPolicy) (context : Option String) (window : ℕ) (events : List Event)
    (hcalls : ∀ event ∈ events, event.isBetweenCalls = false)
    (hsafe : AnchorSafeRun env slack { machine := { manager := m, phase := .idle } }
      (.send content policy context window :: events))
    (reports : List Report) (c : Machine)
    (hrun : run env (.send content policy context window :: events) { manager := m, phase := .idle } =
      some ((), reports, c)) :
    ∃ newer, forEach (.send content policy context window :: events) (countedStep env)
        { machine := { manager := m, phase := .idle } } = some ((), reports, { machine := c, newer }) ∧
      ∀ anchor, c.phase.anchor? c.manager.apiMessages = some anchor →
        AnchorHolds (env.resolveHistoryLimits.maxApiMessages + slack) (turnMessage env content context)
          newer anchor c.manager.apiMessages := by
  obtain ⟨newer, hcounted⟩ :=
    counted_run env (g := { machine := { manager := m, phase := .idle } }) hrun
  refine ⟨newer, hcounted, ?_⟩
  obtain ⟨⟨⟩, out, g₁, out', hsend, hrest, -⟩ := bind_eq_some hcounted
  obtain ⟨hmachine, hnewer⟩ := step_of_countedStep env hsend
  have hbegins : Spec unwatched (fun _ _ => True) (sendMessage env content policy context window)
      fun phase m _ => PhaseAnchored (recentBound env slack) (turnMessage env content context) 0 phase
        m.apiMessages := sendMessage_anchored env content policy context window
  obtain ⟨-, -, hbegun⟩ := hbegins m () g₁.machine.phase out g₁.machine.manager trivial
    (advance_of_step env hmachine)
  have hzero : g₁.newer = 0 := hnewer
  rw [← hzero] at hbegun
  exact (anchored_run env hcalls hbegun (hsafe.2 out g₁ hsend) hrest).1

def earlierTurns : ConversationManager :=
  { apiMessages := [userText "hello", assistantText "hi", userText "thanks", assistantText "bye"] }

/-- The first request is too long for the provider, and a file is read behind it. -/
def overflownRequest : List Event :=
  [.tick, .tick, .tick, .streamFailed "context length exceeded", .tick] ++ sampleRead "t1"

/-- The overflow cuts two messages, and pruning reads the index that lies behind the end then. -/
theorem overflown_request_survives :
    ∃ reports c newer, forEach (.send "read a" .default none 8192 :: overflownRequest)
        (countedStep sampleEnvironment) { machine := { manager := earlierTurns, phase := .idle } } =
        some ((), reports, { machine := c, newer }) ∧
      c.phase.anchor? c.manager.apiMessages = some 2 ∧
      AnchorHolds (sampleEnvironment.resolveHistoryLimits.maxApiMessages + 3)
        (turnMessage sampleEnvironment "read a" none) newer 2 c.manager.apiMessages := by
  have h : ((run sampleEnvironment (.send "read a" .default none 8192 :: overflownRequest)
      { manager := earlierTurns, phase := .idle }).any fun result =>
        decide (result.2.2.phase.anchor? result.2.2.manager.apiMessages = some 2)) = true := by
    decide +kernel
  obtain ⟨⟨⟨⟩, reports, c⟩, hrun, hanchor⟩ := (Option.any_eq_true _ _).mp h
  obtain ⟨newer, hcounted, hholds⟩ := turn_anchor_survives sampleEnvironment 3 earlierTurns "read a"
    .default none 8192 overflownRequest (by decide) (by decide +kernel) reports c hrun
  exact ⟨reports, c, newer, hcounted, of_decide_eq_true hanchor, hholds 2 (of_decide_eq_true hanchor)⟩

/-- The file is read first, and the request with its contents is too long. -/
def overflownResult : List Event :=
  [.tick, .tick, .tick] ++ sampleRead "t1" ++ [.streamFailed "context length exceeded", .tick]

/-- **A misplaced index**: the overflow cuts the earlier turns, and the index stays behind: at the result
of the call, while the user's message is the first one. -/
theorem overflow_misplaces_anchor :
    ∃ reports g, forEach (.send "read a" .default none 8192 :: overflownResult)
        (countedStep sampleEnvironment) { machine := { manager := earlierTurns, phase := .idle } } =
        some ((), reports, g) ∧ g.newer = 2 ∧
      g.machine.phase.anchor? g.machine.manager.apiMessages = some 2 ∧
      g.machine.manager.apiMessages[0]? = some (turnMessage sampleEnvironment "read a" none) ∧
      ¬ AnchorHolds sampleEnvironment.resolveHistoryLimits.maxApiMessages
        (turnMessage sampleEnvironment "read a" none) g.newer 2 g.machine.manager.apiMessages := by
  have h : ((forEach (.send "read a" .default none 8192 :: overflownResult)
      (countedStep sampleEnvironment) { machine := { manager := earlierTurns, phase := .idle } }).any
        fun result => decide (result.2.2.newer = 2 ∧
          result.2.2.machine.phase.anchor? result.2.2.machine.manager.apiMessages = some 2 ∧
          result.2.2.machine.manager.apiMessages[0]? =
            some (turnMessage sampleEnvironment "read a" none) ∧
          result.2.2.machine.manager.apiMessages.length = 3)) = true := by decide +kernel
  obtain ⟨⟨⟨⟩, reports, g⟩, hrun, hstate⟩ := (Option.any_eq_true _ _).mp h
  have hgone : g.newer = 2 ∧ g.machine.phase.anchor? g.machine.manager.apiMessages = some 2 ∧
      g.machine.manager.apiMessages[0]? = some (turnMessage sampleEnvironment "read a" none) ∧
      g.machine.manager.apiMessages.length = 3 := of_decide_eq_true hstate
  obtain ⟨hnewer, hanchor, hfirst, hlength⟩ := hgone
  refine ⟨reports, g, hrun, hnewer, hanchor, hfirst, fun hholds => ?_⟩
  rcases hholds with hdes | ⟨hgone, -⟩
  · have hposition := hdes.position
    omega
  · omega

end Vexcoder.Conversation

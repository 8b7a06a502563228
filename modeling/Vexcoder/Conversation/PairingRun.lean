import Vexcoder.Conversation.CallTable
import Vexcoder.Conversation.Pairing

/-!
# Tool calls and their results along a run

Between calls and their results the history owes the results of the calls that are still to be
answered, behind those that have been; everywhere else it owes nothing.  A call that is cancelled
there leaves a history that owes results, but also an open turn, and no message is sent from it.
-/

namespace Vexcoder.Conversation

open Base Lib Lib.Emitter Vexcoder.Runtime Vexcoder.Task

/-- A turn is open, and the history owes nothing. -/
def Settled (m : ConversationManager) : Prop :=
  m.activePulse.isSome = true ∧ owes m.apiMessages = some []

/-- A turn is open, and the history owes the results of the round. -/
def Owing (e : ToolRound) (calls : List ToolCall) (m : ConversationManager) : Prop :=
  m.activePulse.isSome = true ∧ (∀ block ∈ e.toolResultBlocks, block.isToolResult = true) ∧
    owes m.apiMessages = some (if e.useStructuredRound then
      e.toolResultBlocks.filterMap ContentBlock.toolResultId? ++ calls.map (·.id) else [])

def PairInv (phase : Phase) (m : ConversationManager) : Prop :=
  match phase with
  | .idle => m.activePulse = none → owes m.apiMessages = some []
  | .executing _ e | .parallel _ e => Owing e e.remaining m
  | .recording _ e results => results.length = e.remaining.length ∧ Owing e e.remaining m
  | .approving _ e call | .running _ e call => Owing e (call :: e.remaining) m
  | .streaming _ r | .roundEnd _ r => CallsOnly r ∧ Settled m
  | _ => Settled m

/-- Every request is sent with a history that owes nothing. -/
def pairedRequests (_ : Unit) : Report → Option Unit
  | .request messages => if owes messages = some [] then some () else none
  | _ => some ()

variable {messages : List ApiMessage} {m : ConversationManager} {e : ToolRound}

theorem watch_pairedRequests {reports : List Report} (h : watch pairedRequests () reports = some ())
    (hmem : .request messages ∈ reports) : owes messages = some [] := by
  induction reports with
  | nil => cases hmem
  | cons report reports ih =>
    unfold watch at h
    split at h
    · cases h
    rename_i hstep
    rcases List.mem_cons.mp hmem with rfl | hmem
    · simp only [pairedRequests] at hstep
      split at hstep
      · assumption
      · cases hstep
    · exact ih h hmem

theorem Settled.of_kept {m' : ConversationManager} (h : Settled m) (hkept : m'.kept = m.kept) :
    Settled m' := by
  refine ⟨(isOpen_of_kept hkept).trans h.1, ?_⟩
  rw [show m'.apiMessages = m.apiMessages from congrArg Kept.messages hkept]
  exact h.2

theorem Owing.of_kept {calls : List ToolCall} {m' : ConversationManager} (h : Owing e calls m)
    (hkept : m'.kept = m.kept) : Owing e calls m' := by
  refine ⟨(isOpen_of_kept hkept).trans h.1, h.2.1, ?_⟩
  rw [show m'.apiMessages = m.apiMessages from congrArg Kept.messages hkept]
  exact h.2.2

theorem Quiet.settled {α : Type} {x : Emitter ConversationManager Report α} (h : Quiet x) :
    Spec pairedRequests (fun m _ => Settled m) x fun _ m _ => Settled m :=
  h.spec (fun _ _ => rfl) fun _ _ _ hkept hi => hi.of_kept hkept

theorem Quiet.owing {α : Type} {x : Emitter ConversationManager Report α} (h : Quiet x)
    (e : ToolRound) (calls : List ToolCall) :
    Spec pairedRequests (fun m _ => Owing e calls m) x fun _ m _ => Owing e calls m :=
  h.spec (fun _ _ => rfl) fun _ _ _ hkept hi => hi.of_kept hkept

/-! ### The messages of a round -/

variable (env : Environment) (blocks : List ContentBlock)

theorem toolCall?_ids :
    (blocks.filterMap ContentBlock.toolCall?).map (·.id) = blocks.filterMap ContentBlock.toolUseId? := by
  rw [List.map_filterMap]
  congr 1
  funext block
  cases block <;> rfl

/-- A message of calls: the round has no block that is a result. -/
theorem owes_assistantMessage (h : owes messages = some []) (blocks : List ContentBlock)
    (hblocks : ∀ block ∈ blocks, block.isToolResult = false) (text : String) (useStructuredRound : Bool) :
    owes (messages ++ [assistantMessage env blocks text useStructuredRound]) =
      some (if useStructuredRound then blocks.filterMap ContentBlock.toolUseId? else []) := by
  rw [owes_snoc h]
  cases useStructuredRound with
  | false => rfl
  | true =>
    have hresults : blocks.filterMap ContentBlock.toolResultId? = [] := by
      refine List.filterMap_eq_nil_iff.mpr fun block hmem => ?_
      have hno := hblocks block hmem
      rw [ContentBlock.isToolResult_eq] at hno
      exact Option.not_isSome_iff_eq_none.mp (by rw [hno]; decide)
    have hresult : (assistantMessage env blocks text true).toolResultIds = [] := by
      unfold assistantMessage
      dsimp only [ApiMessage.toolResultIds, ApiMessage.blocks]
      rw [if_pos rfl]
      rw [List.filterMap_append, hresults]
      split <;> rfl
    have huse : (assistantMessage env blocks text true).toolUseIds =
        blocks.filterMap ContentBlock.toolUseId? := by
      unfold assistantMessage
      dsimp only [ApiMessage.toolUseIds, ApiMessage.blocks]
      rw [if_pos rfl]
      rw [List.filterMap_append]
      split <;> rfl
    rw [pairStep, hresult, huse]
    rfl

theorem owes_resultMessage (hresults : ∀ block ∈ e.toolResultBlocks, block.isToolResult = true)
    (h : owes messages = some (if e.useStructuredRound then
      e.toolResultBlocks.filterMap ContentBlock.toolResultId? else [])) :
    owes (messages ++ [e.resultMessage]) = some [] := by
  unfold ToolRound.resultMessage
  split
  · rename_i hstructured
    rw [if_pos hstructured] at h
    have huse : e.toolResultBlocks.filterMap ContentBlock.toolUseId? = [] := by
      refine List.filterMap_eq_nil_iff.mpr fun block hmem => ?_
      have hres := hresults block hmem
      cases block with
      | toolResult toolUseId content isError => rfl
      | _ => cases hres
    rw [owes_snoc h]
    show (if _ then some (e.toolResultBlocks.filterMap ContentBlock.toolUseId?) else none) = some []
    rw [if_pos ⟨rfl, Or.inr rfl⟩, huse]
  · rename_i hstructured
    rw [if_neg hstructured] at h
    exact owes_snoc_text h

/-- An answer settles the first of the calls. -/
theorem Owing.answer {call : ToolCall} {calls : List ToolCall} (h : Owing e (call :: calls) m)
    (content rendered : String) (isError : Bool) :
    Owing (e.answer env call content rendered isError) calls m := by
  obtain ⟨hopen, hresults, howes⟩ := h
  unfold ToolRound.answer
  split
  · rename_i hstructured
    refine ⟨hopen, fun block hmem => ?_, ?_⟩
    · rcases List.mem_append.mp hmem with hmem | hmem
      · exact hresults block hmem
      · obtain rfl := List.mem_singleton.mp hmem
        rfl
    · rw [howes]
      simp [hstructured, ContentBlock.toolResultId?]
  · rename_i hstructured
    refine ⟨hopen, hresults, ?_⟩
    rw [howes]
    simp [hstructured]

theorem openCalls_results {r : RoundState} (h : CallsOnly r) :
    ∀ block ∈ r.openCalls, block.isToolResult = false := by
  intro block hmem
  obtain ⟨call, rfl⟩ := h block (List.mem_filter.mp hmem).1
  rfl

/-! ### The end of a turn -/

theorem returnTurn_pairs (outcome : PulseOutcome) (tokens : PulseTokens) (result : Except String String) :
    Spec pairedRequests (fun m _ => owes m.apiMessages = some [])
      (returnTurn env outcome tokens result) fun phase m _ => PairInv phase m := by
  refine Spec.bind (R := fun _ m _ => owes m.apiMessages = some []) ?_ fun _ =>
    Spec.bind (Spec.emit fun _ _ h => ⟨(), rfl, h⟩) fun _ => Spec.pure fun _ _ h _ => h
  refine Spec.read_any fun m => ?_
  cases m.taskDoc with
  | none => exact Spec.modify fun _ _ h => h
  | some doc =>
    refine Spec.bind (R := fun _ m _ => owes m.apiMessages = some []) (Spec.read_any fun _ =>
      Spec.bind (R := fun _ m _ => owes m.apiMessages = some []) (Spec.modify fun _ _ h => h)
        fun _ => Spec.pure fun _ _ h => h) fun _ => ?_
    exact Spec.bind (Spec.modify fun _ _ h => h) fun _ => Spec.modify fun _ _ h => h

theorem returnGuarded_pairs (message : String) :
    Spec pairedRequests (fun m _ => Settled m) (returnGuarded env message)
      fun phase m _ => PairInv phase m :=
  Spec.bind (quiet_emitGuardLine message).settled fun _ => Spec.read_any fun _ =>
    (returnTurn_pairs env _ _ _).conseq (fun _ _ h => h.2) fun _ _ _ h => h

theorem pushText_settled {role text : String} {cacheHint : Option String} :
    Spec pairedRequests (fun m _ => Settled m)
      (pushMessage { role, content := .text text, cacheHint }) fun _ m _ => Settled m :=
  Spec.modify fun _ _ h => ⟨h.1, owes_snoc_text h.2⟩

/-! ### The steps -/

/-- The steps that may leave calls without results, or results without calls, do not: a round in which
the model is told not to repeat itself has no calls in its message, and the history is cut at a user
request or at a message without results. -/
def PairingSafe (phase : Phase) (m : ConversationManager) (event : Event) : Prop :=
  match phase, event with
  | .roundTop t, .tick =>
    PruneSafe m.apiMessages env.resolveHistoryLimits.maxApiMessages t.turnUserAnchorIndex
  | .requesting t, .streamFailed message =>
    t.overflowRetryCount < 3 → isContextOverflow message = true →
      OverflowSafe m.apiMessages (overflowKeepMessages t.overflowRetryCount)
        (t.overflowPreserveIndex m.apiMessages)
  | .roundEnd t r, .tick =>
    roundVerdict env (t.countRound env r.openCalls) r.openCalls r.assistantText = .nudge →
      r.useStructuredRound env = false
  | _, _ => True

instance (phase : Phase) (m : ConversationManager) (event : Event) :
    Decidable (PairingSafe env phase m event) := by
  unfold PairingSafe
  split <;> infer_instance

theorem maxApiMessages_pos : 0 < env.resolveHistoryLimits.maxApiMessages := by
  refine Nat.lt_of_lt_of_le (by decide : 0 < 4) (env.envOverrideUsize_ge ?_)
  cases env.client.isLocalEndpoint <;> decide

theorem overflowKeepMessages_pos (overflowRetryCount : ℕ) : 0 < overflowKeepMessages overflowRetryCount := by
  unfold overflowKeepMessages
  split <;> decide

theorem ensureTaskDoc_pairs :
    Spec pairedRequests (fun m _ => PairInv .idle m) (ensureTaskDoc env)
      fun _ m _ => m.taskDoc.isSome = true ∧ PairInv .idle m := by
  refine Spec.read fun m => ?_
  cases hdoc : m.taskDoc with
  | some doc =>
    refine Spec.pure fun s _ h => ?_
    obtain ⟨rfl, hinv⟩ := h
    exact ⟨by rw [hdoc]; rfl, hinv⟩
  | none =>
    have hidle : m.activePulse = none := by rw [ConversationManager.activePulse, hdoc]; rfl
    refine Spec.bind (R := fun _ s _ => owes s.apiMessages = some []) ?_ fun _ =>
      Spec.modify fun _ _ h => ⟨rfl, fun _ => h⟩
    refine Spec.read_any fun _ => Spec.bind (R := fun _ s _ => owes s.apiMessages = some [])
      (Spec.modify fun s _ h => ?_) fun _ => Spec.pure fun _ _ h => h
    obtain ⟨rfl, hinv⟩ := h
    exact hinv hidle

/-- A turn begins only where none is open, and there the history owes nothing. -/
theorem beginTurnDoc_pairs (input : String) (toolPolicy : PulseToolPolicy) :
    Spec pairedRequests (fun m _ => m.taskDoc.isSome = true ∧ PairInv .idle m)
      (beginTurnDoc env input toolPolicy)
      fun begun m _ => if begun then Settled m else PairInv .idle m := by
  refine Spec.of_run fun m mon hm => ?_
  obtain ⟨hsome, hinv⟩ := hm
  obtain ⟨doc, hdoc⟩ := Option.isSome_iff_exists.mp hsome
  have hread := readClock_run env m
  unfold beginTurnDoc
  rw [bind_of_some (read_run m)]
  simp only [hdoc]
  rw [bind_of_some hread]
  cases hbegin : doc.beginTurn input (env.clock m.clockReads) toolPolicy with
  | none => exact ⟨_, _, _, mon, rfl, rfl, hinv⟩
  | some doc' =>
    refine ⟨_, _, _, mon, rfl, rfl, ?_⟩
    unfold TaskDocument.beginTurn at hbegin
    split at hbegin
    · cases hbegin
    rename_i hclosed
    obtain rfl := Option.some.inj hbegin
    refine ⟨rfl, hinv ?_⟩
    rw [ConversationManager.activePulse, hdoc]
    exact Option.not_isSome_iff_eq_none.mp hclosed

theorem sendMessage_pairs (content : String) (turnToolPolicy : PulseToolPolicy)
    (sharedPrefixContext : Option String) (contextWindowTokens : ℕ) :
    Spec pairedRequests (fun m _ => PairInv .idle m)
      (sendMessage env content turnToolPolicy sharedPrefixContext contextWindowTokens)
      fun phase m _ => PairInv phase m := by
  refine Spec.bind (R := fun _ m _ => PairInv .idle m) (Spec.modify fun _ _ h => h) fun _ => ?_
  refine Spec.bind (ensureTaskDoc_pairs env) fun _ => ?_
  refine Spec.bind (beginTurnDoc_pairs env content turnToolPolicy) fun begun => ?_
  cases begun with
  | false => exact Spec.bind (Spec.emit fun _ _ h => ⟨(), rfl, h⟩) fun _ => Spec.pure fun _ _ h => h
  | true =>
    refine Spec.bind (R := fun _ m _ => Settled m) (Spec.emit fun _ _ h => ⟨(), rfl, h⟩) fun _ => ?_
    refine Spec.bind pushText_settled fun _ => ?_
    cases builtinSupportedGitToolsResponse content with
    | none => exact Spec.read_any fun _ => Spec.pure fun _ _ h => h
    | some response =>
      refine Spec.bind pushText_settled fun _ => ?_
      refine Spec.bind (quiet_emitStreamUpdate _).settled fun _ => ?_
      exact (returnTurn_pairs env _ _ _).conseq (fun _ _ h => h.2) fun _ _ _ h => h

/-! ### The head of the loop -/

variable (t : TurnState)

theorem condenseOld_pairs :
    Spec pairedRequests (fun m _ => Settled m) (condenseOld env t) fun phase m _ => PairInv phase m := by
  refine Spec.read fun m => Spec.bind (R := fun _ s _ => Settled s) ?_ fun _ => Spec.pure fun _ _ h => h
  refine Spec.modify fun s _ h => ?_
  obtain ⟨rfl, hopen, howes⟩ := h
  exact ⟨hopen, (owes_condenseOld s.apiMessages _).trans howes⟩

theorem compactProactively_pairs :
    Spec pairedRequests (fun m _ => Settled m) (compactProactively env t)
      fun phase m _ => PairInv phase m := by
  refine Spec.read fun m => Spec.bind (R := fun _ s _ => Settled s) ?_ fun _ => ?_
  · refine Spec.modify fun s _ h => ?_
    obtain ⟨rfl, hopen, howes⟩ := h
    exact ⟨hopen, owes_runProactiveCompaction howes _ _ _ _ _⟩
  · cases (proactiveCompaction env m t).2 with
    | none => exact Spec.pure fun _ _ h => h
    | some counts =>
      exact Spec.bind (quiet_emitStreamUpdate _).settled fun _ => Spec.pure fun _ _ h => h

theorem startRound_pairs :
    Spec pairedRequests (fun m _ => PairingSafe env (.roundTop t) m .tick ∧ Settled m)
      (startRound env t) fun phase m _ => PairInv phase m := by
  refine Spec.bind (R := fun _ m _ => PairingSafe env (.roundTop t) m .tick ∧ Settled m)
    (Spec.modify fun _ _ h => h) fun _ => Spec.read fun m => ?_
  refine Spec.bind (R := fun _ s _ => Settled s) ?_ fun _ => ?_
  · refine Spec.modify fun s _ h => ?_
    obtain ⟨rfl, hsafe, hopen, howes⟩ := h
    exact ⟨hopen, owes_prune howes (maxApiMessages_pos env) hsafe⟩
  · dsimp only
    split
    · refine Spec.bind (quiet_emitGuardLine _).settled fun _ => ?_
      exact (returnTurn_pairs env _ _ _).conseq (fun _ _ h => h.2) fun _ _ _ h => h
    refine Spec.bind (Spec.onlyIf fun _ => pushText_settled) fun _ => Spec.read fun m' => ?_
    refine Spec.bind (R := fun _ s _ => Settled s) (Spec.emit fun s mon h => ?_) fun _ =>
      Spec.pure fun _ _ h => h
    obtain ⟨rfl, hsettled⟩ := h
    exact ⟨(), if_pos hsettled.2, hsettled⟩

theorem streamFailed_pairs (message : String) :
    Spec pairedRequests
      (fun m _ => PairingSafe env (.requesting t) m (.streamFailed message) ∧ Settled m)
      (streamFailed env t message) fun phase m _ => PairInv phase m := by
  unfold streamFailed
  split
  · rename_i hretry
    obtain ⟨hcount, hoverflow⟩ := (Bool.and_eq_true _ _).mp hretry
    refine Spec.read fun m => Spec.bind (R := fun _ s _ => Settled s) ?_ fun _ => ?_
    · refine Spec.modify fun s _ h => ?_
      obtain ⟨rfl, hsafe, hopen, howes⟩ := h
      exact ⟨hopen, owes_overflow howes (overflowKeepMessages_pos _)
        (hsafe (of_decide_eq_true hcount) hoverflow)⟩
    · exact Spec.bind (quiet_emitStreamUpdate _).settled fun _ => Spec.pure fun _ _ h => h
  · exact (returnTurn_pairs env _ _ _).conseq (fun _ _ h => h.2.2) fun _ _ _ h => h

/-! ### The end of a round -/

theorem pushAssistant_spec (hblocks : ∀ block ∈ blocks, block.isToolResult = false) (text : String)
    (useStructuredRound : Bool) :
    Spec pairedRequests (fun m _ => Settled m)
      (pushMessage (assistantMessage env blocks text useStructuredRound))
      fun _ m _ => Owing { useStructuredRound, remaining := blocks.filterMap ContentBlock.toolCall? }
        (blocks.filterMap ContentBlock.toolCall?) m := by
  refine Spec.modify fun m _ h => ⟨h.1, nofun, ?_⟩
  rw [toolCall?_ids]
  exact owes_assistantMessage env h.2 blocks hblocks text useStructuredRound

theorem Owing.settled (h : Owing e [] m) (hresults : e.toolResultBlocks = []) : Settled m := by
  refine ⟨h.1, ?_⟩
  rw [h.2.2, hresults]
  cases e.useStructuredRound <;> rfl

theorem endWithoutCalls_pairs (text : String) :
    Spec pairedRequests (fun m _ => Settled m) (endWithoutCalls env t text)
      fun phase m _ => PairInv phase m := by
  unfold endWithoutCalls
  dsimp only
  split
  · exact Spec.bind pushText_settled fun _ => Spec.pure fun _ _ h => h
  split
  · exact returnGuarded_pairs env _
  · refine Spec.bind (quiet_promoteThinkingBlocksToFinalText env).settled fun _ => ?_
    refine Spec.bind (R := fun _ m _ => Settled m) (Spec.modify fun _ _ h => h) fun _ => ?_
    exact (returnTurn_pairs env _ _ _).conseq (fun _ _ h => h.2) fun _ _ _ h => h

theorem startCalls_pairs (useStructuredRound : Bool) :
    Spec pairedRequests
      (fun m _ => Owing { useStructuredRound, remaining := blocks.filterMap ContentBlock.toolCall? }
        (blocks.filterMap ContentBlock.toolCall?) m)
      (startCalls env t blocks useStructuredRound) fun phase m _ => PairInv phase m := by
  unfold startCalls
  split
  · refine Spec.bind (Spec.forEach fun call _ => ?_) fun _ => Spec.pure fun _ _ h => h
    exact (quiet_setToolCallStatus env _ _).owing _ _
  · exact Spec.pure fun _ _ h => h

theorem endRound_pairs (r : RoundState)
    (hsafe : roundVerdict env (t.countRound env r.openCalls) r.openCalls r.assistantText = .nudge →
      r.useStructuredRound env = false) :
    Spec pairedRequests (fun m _ => CallsOnly r ∧ Settled m) (endRound env t r)
      fun phase m _ => PairInv phase m := by
  refine Spec.of_pure fun hcalls => ?_
  have hpush := pushAssistant_spec env r.openCalls (openCalls_results hcalls) r.assistantText
  unfold endRound
  dsimp only
  split
  · exact returnGuarded_pairs env _
  · rename_i hnudge
    rw [hsafe hnudge]
    refine Spec.bind (R := fun _ m _ => Settled m) ?_ fun _ =>
      Spec.bind pushText_settled fun _ => Spec.pure fun _ _ h => h
    -- a text message that renders the calls
    exact (hpush false).conseq (fun _ _ h => h) fun _ _ _ h => ⟨h.1, h.2.2⟩
  · refine Spec.bind (hpush (r.useStructuredRound env)) fun _ => ?_
    split
    · rename_i hempty
      rw [List.isEmpty_iff.mp hempty]
      refine (endWithoutCalls_pairs env _ _).conseq (fun _ _ h => h.settled rfl) fun _ _ _ h => h
    · exact startCalls_pairs env _ _ _

/-! ### The calls of a round -/

variable (e : ToolRound)

theorem finishCalls_pairs :
    Spec pairedRequests (fun m _ => Owing e [] m) (finishCalls t e)
      fun phase m _ => PairInv phase m := by
  refine Spec.bind (R := fun _ m _ => Settled m) (Spec.modify fun m _ h => ?_) fun _ =>
    Spec.pure fun _ _ h => h
  obtain ⟨hopen, hresults, howes⟩ := h
  refine ⟨hopen, owes_resultMessage hresults ?_⟩
  rw [howes]
  simp

variable (call : ToolCall)

theorem emitToolError_pairs (clarification : String) (calls : List ToolCall) :
    Spec pairedRequests (fun m _ => Owing e (call :: calls) m) (emitToolError env e call clarification)
      fun e' m _ => e'.remaining = e.remaining ∧ Owing e' calls m :=
  Spec.bind ((quiet_emitStreamUpdate _).owing _ _) fun _ =>
    Spec.pure fun _ _ h => ⟨remaining_answer env _ _ _ _ _, h.answer env _ _ _⟩

theorem refuseCall_pairs (clarification : String) (calls : List ToolCall) :
    Spec pairedRequests (fun m _ => Owing e (call :: calls) m) (refuseCall env e call clarification)
      fun e' m _ => e'.remaining = e.remaining ∧ Owing e' calls m :=
  Spec.bind ((quiet_setToolCallStatus env _ _).owing _ _) fun _ =>
    Spec.bind ((quiet_pushToolResultBlock env _ _ _).owing _ _) fun _ =>
      emitToolError_pairs env e call clarification calls

theorem recordResult_pairs (result : Except String String) (calls : List ToolCall) :
    Spec pairedRequests (fun m _ => Owing e (call :: calls) m) (recordResult env t e call result)
      fun next m _ => next.2.remaining = e.remaining ∧ Owing next.2 calls m := by
  refine Spec.bind ((quiet_setToolCallStatus env _ _).owing e (call :: calls)) fun _ => ?_
  refine Spec.bind ((quiet_pushToolResultBlock env _ _ _).owing e (call :: calls)) fun _ => ?_
  refine Spec.bind (R := fun _ m _ => Owing e (call :: calls) m) (Spec.read_any fun m => ?_) fun _ =>
    Spec.pure fun _ _ h => ⟨remaining_answer env _ _ _ _ _, h.answer env _ _ _⟩
  refine Spec.bind (R := fun _ m _ => Owing e (call :: calls) m)
    (Spec.forSome fun _ _ => Spec.emit fun _ _ h => ⟨(), rfl, h⟩) fun _ => ?_
  exact Spec.bind (R := fun _ m _ => Owing e (call :: calls) m) (Spec.modify fun _ _ h => h)
    fun _ => Spec.pure fun _ _ h => h

theorem takeCall_pairs :
    Spec pairedRequests (fun m _ => Owing e (call :: e.remaining) m) (takeCall env t e call)
      fun phase m _ => PairInv phase m := by
  unfold takeCall
  split
  · refine Spec.bind (refuseCall_pairs env e call _ e.remaining) fun e' => Spec.pure fun _ _ h => ?_
    rw [← h.1] at h
    exact h.2
  · split
    · refine Spec.bind ((quiet_setToolCallStatus env _ _).owing _ _) fun _ => ?_
      exact Spec.bind ((quiet_emitStreamUpdate _).owing _ _) fun _ => Spec.pure fun _ _ h => h
    · exact Spec.bind ((quiet_setToolCallStatus env _ _).owing _ _) fun _ => Spec.pure fun _ _ h => h

theorem answerApproval_pairs (approved : Bool) :
    Spec pairedRequests (fun m _ => Owing e (call :: e.remaining) m)
      (answerApproval env t e call approved) fun phase m _ => PairInv phase m := by
  cases approved with
  | true =>
    exact Spec.bind ((quiet_setToolCallStatus env _ _).owing _ _) fun _ => Spec.pure fun _ _ h => h
  | false =>
    refine Spec.bind (refuseCall_pairs env e call _ e.remaining) fun e' => Spec.pure fun _ _ h => ?_
    rw [← h.1] at h
    exact h.2

/-! ### Runs -/

/-- Where a call can be dropped a turn is open. -/
theorem PairInv.isOpen {phase : Phase} (hawait : phase.isAwait = true) (h : PairInv phase m) :
    m.activePulse.isSome = true := by
  cases phase with
  | requesting t | approving t e call | running t e call | parallel t e => exact h.1
  | streaming t r => exact h.2.1
  | _ => cases hawait

/-- **One step** that is safe keeps the pairing. -/
theorem advance_pairs (phase : Phase) (event : Event) :
    Spec pairedRequests (fun m _ => PairingSafe env phase m event ∧ PairInv phase m)
      (advance env phase event) fun phase m _ => PairInv phase m := by
  refine advance_cases env
    (M := fun phase event x => Spec pairedRequests
      (fun m _ => PairingSafe env phase m event ∧ PairInv phase m) x fun phase m _ => PairInv phase m)
    ?crash ?send ?clear ?condensing ?compacting ?roundTop ?opened ?failed ?signal ?streamError ?ended
    ?roundEnd ?callsDone ?call ?approval ?tool ?tools ?recorded ?record ?cancel phase event
  case crash => exact fun _ _ => Spec.crash
  case send =>
    intro content policy sharedPrefix window
    exact (sendMessage_pairs env _ _ _ _).conseq (fun _ _ h => h.2) fun _ _ _ h => h
  case clear =>
    refine Spec.bind (R := fun _ m _ => PairInv .idle m) (Spec.modify fun _ _ _ _ => rfl) fun _ => ?_
    exact Spec.bind (Spec.emit fun _ _ h => ⟨(), rfl, h⟩) fun _ => Spec.pure fun _ _ h => h
  case condensing =>
    exact fun t => (condenseOld_pairs env t).conseq (fun _ _ h => h.2) fun _ _ _ h => h
  case compacting =>
    exact fun t => (compactProactively_pairs env t).conseq (fun _ _ h => h.2) fun _ _ _ h => h
  case roundTop => exact fun t => startRound_pairs env t
  case opened =>
    intro t
    refine Spec.bind (R := fun _ m _ => Settled m) (Spec.emit fun _ _ h => ⟨(), rfl, h.2⟩) fun _ => ?_
    exact Spec.pure fun _ _ h => ⟨nofun, h⟩
  case failed => exact fun t message => streamFailed_pairs env t message
  case signal =>
    intro t r signal
    refine Spec.conseq (P := fun m _ => CallsOnly r ∧ Settled m) ?_ (fun _ _ h => h.2)
      fun _ _ _ h => h
    refine Spec.of_pure fun hcalls => ?_
    refine Spec.bind ((quiet_receiveSignal env t r signal).settled.ensures
      (receiveSignal_callsOnly env t hcalls signal)) fun _ => Spec.pure fun _ _ h => h
  case streamError =>
    intro t r message
    exact (returnTurn_pairs env _ _ _).conseq (fun _ _ h => h.2.2.2) fun _ _ _ h => h
  case ended => exact fun t r => Spec.pure fun _ _ h => h.2
  case roundEnd => exact fun t r => Spec.of_pure fun hsafe => endRound_pairs env t r hsafe
  case callsDone =>
    intro t e hremaining
    refine (finishCalls_pairs t e).conseq (fun m _ h => ?_) fun _ _ _ h => h
    rw [← hremaining]
    exact h.2
  case call =>
    intro t e call remaining hremaining
    refine (takeCall_pairs env t { e with remaining } call).conseq (fun m _ h => ?_) fun _ _ _ h => h
    have howing : Owing e e.remaining m := h.2
    rw [hremaining] at howing
    exact howing
  case approval =>
    exact fun t e call approved =>
      (answerApproval_pairs env t e call approved).conseq (fun _ _ h => h.2) fun _ _ _ h => h
  case tool =>
    intro t e call result
    refine Spec.bind (R := fun (next : TurnState × ToolRound) m _ => Owing next.2 next.2.remaining m) ?_ fun _ =>
      Spec.pure fun _ _ h => h
    refine (recordResult_pairs env t e call result e.remaining).conseq (fun _ _ h => h.2)
      fun next _ _ h => ?_
    rw [h.1]
    exact h.2
  case tools =>
    intro t e results hlength
    refine Spec.pure fun m _ h => ⟨?_, h.2⟩
    rw [List.length_zipWith, hlength, Nat.min_self]
  case recorded =>
    intro t e results hdone
    refine (finishCalls_pairs t e).conseq (fun m _ h => ?_) fun _ _ _ h => h
    obtain ⟨-, hlength, howing⟩ := h
    have hremaining : e.remaining = [] := by
      rcases hdone with hremaining | hresults
      · exact hremaining
      · rw [hresults] at hlength
        exact List.eq_nil_of_length_eq_zero hlength.symm
    rw [hremaining] at howing
    exact howing
  case record =>
    intro t e call remaining result results hremaining
    refine Spec.conseq (P := fun m _ => results.length = remaining.length ∧
      Owing { e with remaining } (call :: remaining) m) ?_ (fun m _ h => ?_) fun _ _ _ h => h
    · refine Spec.of_pure fun hlength => ?_
      refine Spec.bind (recordResult_pairs env t { e with remaining } call result remaining)
        fun next => Spec.pure fun m _ h => ?_
      obtain ⟨hnext, howing⟩ := h
      refine ⟨by rw [hnext, hlength], ?_⟩
      rw [hnext]
      exact howing
    · obtain ⟨-, hlength, howing⟩ := h
      rw [hremaining] at hlength howing
      exact ⟨Nat.succ.inj hlength, howing⟩
  case cancel =>
    intro phase hawait
    refine Spec.bind (R := fun _ m _ => m.activePulse.isSome = true)
      (Spec.emit fun _ _ h => ⟨(), rfl, h.2.isOpen hawait⟩) fun _ => Spec.pure fun m _ h hnone => ?_
    rw [hnone] at h
    cases h

/-- **Calls and results are paired**: in a run whose steps are all safe, every request to the provider
carries a history in which each message with calls is followed by the results of these calls, and no
result stands without its call. -/
theorem requests_paired (events : List Event) (reports : List Report) (c : Machine)
    (hrun : run env events {} = some ((), reports, c))
    (hsafe : Meets (fun _ c event => PairingSafe env c.phase c.manager event) (step env) [] {}
      events) :
    ∀ messages, .request messages ∈ reports → ToolPairing messages := by
  have hstart : PairInv Phase.idle {} := fun _ => rfl
  have hpast : watch pairedRequests () [] = some () := rfl
  obtain ⟨⟨⟩, hwatch, -⟩ := run_meets (I := fun (c : Machine) _ => PairInv c.phase c.manager)
    (fun past c mon event out c' _ hinv hmeets hstep =>
      step_of_advance env (P := fun phase m _ => PairingSafe env phase m event ∧ PairInv phase m)
        (advance_pairs env c.phase event) ⟨hmeets, hinv⟩ hstep)
    hpast hstart hsafe hrun
  intro messages hmem
  exact toolPairing_of_owes (watch_pairedRequests hwatch hmem)

/-- A turn with a call that is answered, and the request with its result. -/
theorem requests_paired_sample :
    ∃ reports c, run sampleEnvironment (sampleRequest "read a" ++ sampleRead "t1") {} =
        some ((), reports, c) ∧
      (∃ messages, .request messages ∈ reports ∧ messages.length = 3) ∧
      ∀ messages, .request messages ∈ reports → ToolPairing messages := by
  have h : ((run sampleEnvironment (sampleRequest "read a" ++ sampleRead "t1") {}).any fun result =>
      result.2.1.any fun report =>
        match report with
        | .request messages => messages.length == 3
        | _ => false) = true := by decide +kernel
  obtain ⟨⟨⟨⟩, reports, c⟩, hrun, hsent⟩ := (Option.any_eq_true _ _).mp h
  refine ⟨reports, c, hrun, ?_, requests_paired sampleEnvironment _ reports c hrun (by decide +kernel)⟩
  obtain ⟨report, hmem, hlength⟩ := List.any_eq_true.mp hsent
  cases report with
  | request messages => exact ⟨messages, hmem, beq_iff_eq.mp hlength⟩
  | _ => cases hlength

/-- A history that begins with a result is not paired. -/
theorem ToolPairing.results_nil {first : ApiMessage} {rest : List ApiMessage}
    (h : ToolPairing (first :: rest)) : first.toolResultIds = [] := by
  refine List.eq_nil_iff_forall_not_mem.mpr fun id hid => ?_
  obtain ⟨j, previous, hj, -, -⟩ := h.called 0 first rfl id hid
  omega

def startsWithResult : Report → Bool
  | .request (first :: _) => first.toolResultIds == ["t1"]
  | _ => false

/-- After a call has been answered the provider reports an overflow three times: the last of the
compactions keeps nothing but the result. -/
theorem overflow_leaves_result :
    ∃ reports c messages, run sampleEnvironment (sampleRequest "read a" ++ sampleRead "t1" ++
        [.streamFailed "context window", .tick, .streamFailed "context window", .tick,
          .streamFailed "context window", .tick]) {} = some ((), reports, c) ∧
      .request messages ∈ reports ∧ ¬ ToolPairing messages := by
  have h : ((run sampleEnvironment (sampleRequest "read a" ++ sampleRead "t1" ++
      [.streamFailed "context window", .tick, .streamFailed "context window", .tick,
        .streamFailed "context window", .tick]) {}).any fun result =>
      result.2.1.any startsWithResult) = true := by decide +kernel
  obtain ⟨⟨⟨⟩, reports, c⟩, hrun, hsent⟩ := (Option.any_eq_true _ _).mp h
  obtain ⟨report, hmem, hfirst⟩ := List.any_eq_true.mp hsent
  cases report with
  | request messages =>
    cases messages with
    | nil => cases hfirst
    | cons first rest =>
      refine ⟨reports, c, first :: rest, hrun, hmem, fun hpaired => ?_⟩
      have hnil := hpaired.results_nil
      rw [beq_iff_eq.mp hfirst] at hnil
      cases hnil
  | _ => cases hfirst

end Vexcoder.Conversation

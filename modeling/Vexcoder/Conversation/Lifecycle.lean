import Vexcoder.Conversation.Frames

/-!
# The life of a turn

A turn is open in the task document exactly while the call that has begun it has not returned, as
long as no call is cancelled.  A cancelled call leaves its turn open, and the next message runs into
the assertion that no pulse is open.
-/

namespace Vexcoder.Conversation

open Base Lib Lib.Emitter Vexcoder.Runtime Vexcoder.Task

/-- The inputs of the turns begun since the conversation was cleared; the assertion does not fail. -/
def lifecycle (begun : List String) : Report → Option (List String)
  | .turnBegun input => some (begun ++ [input])
  | .cleared => some []
  | .assertionFailed => none
  | _ => some begun

def begunInputs : List Report → List String → List String
  | [], begun => begun
  | .turnBegun input :: reports, begun => begunInputs reports (begun ++ [input])
  | .cleared :: reports, _ => begunInputs reports []
  | _ :: reports, begun => begunInputs reports begun

namespace ConversationManager

def completedInputs (m : ConversationManager) : List String :=
  match m.taskDoc with
  | some doc => doc.completedTurns.map fun turn => turn.input
  | none => []

def Closed (m : ConversationManager) (begun : List String) : Prop :=
  m.activePulse = none ∧ m.completedInputs = begun

/-- The turn begun last is open, and the ones before it are completed. -/
def Open (m : ConversationManager) (begun : List String) : Prop :=
  ∃ active, m.activePulse = some active ∧ m.completedInputs ++ [active.input] = begun

end ConversationManager

open ConversationManager

/-- Between two calls no turn is open, within a call its turn is. -/
def TurnInv (phase : Phase) (m : ConversationManager) (begun : List String) : Prop :=
  match phase with
  | .idle => m.Closed begun
  | _ => m.Open begun

variable {m m' : ConversationManager} {begun : List String} {reports : List Report} {c : Machine}

theorem turnInv_iff_open {phase : Phase} (h : phase ≠ .idle) : TurnInv phase m begun ↔ m.Open begun := by
  cases phase with
  | idle => exact absurd rfl h
  | _ => exact Iff.rfl

theorem watch_lifecycle {begun' : List String} :
    watch lifecycle begun reports = some begun' ↔
      .assertionFailed ∉ reports ∧ begunInputs reports begun = begun' := by
  induction reports generalizing begun with
  | nil => simp [watch, begunInputs]
  | cons report reports ih =>
    cases report <;> simp [watch, lifecycle, begunInputs, ih]

/-! ### The task document -/

theorem completedInputs_of_turns (h : m'.taskDoc.map turnsOf = m.taskDoc.map turnsOf) :
    m'.completedInputs = m.completedInputs := by
  unfold completedInputs
  cases hdoc : m.taskDoc <;> cases hdoc' : m'.taskDoc <;> simp_all [turnsOf]

theorem Open.of_turns (hopen : m.Open begun) (h : m'.taskDoc.map turnsOf = m.taskDoc.map turnsOf) :
    m'.Open begun := by
  obtain ⟨active, hactive, hbegun⟩ := hopen
  have hinput := activeInput_of_turns h
  rw [hactive] at hinput
  obtain ⟨active', hactive', hsame⟩ := Option.map_eq_some_iff.mp hinput
  refine ⟨active', hactive', ?_⟩
  rw [completedInputs_of_turns h, hsame]
  exact hbegun

variable (env : Environment)

/-- What is quiet keeps the turn open. -/
theorem Quiet.keeps_open {α : Type} {x : Emitter ConversationManager Report α} (h : Quiet x) :
    Spec lifecycle Open x fun _ => Open :=
  h.spec (fun _ _ => rfl) fun _ _ _ hkept hopen => Open.of_turns hopen (congrArg Kept.turns hkept)

theorem modify_open {f : ConversationManager → ConversationManager} (h : ∀ m, (f m).taskDoc = m.taskDoc) :
    Spec lifecycle Open (modify f : Emitter ConversationManager Report Unit) fun _ => Open :=
  Spec.modify fun m _ hopen => Open.of_turns hopen (by rw [h])

theorem setMessages_open (messages : List ApiMessage) :
    Spec lifecycle Open (setMessages messages) fun _ => Open := modify_open fun _ => rfl

theorem pushMessage_open (message : ApiMessage) :
    Spec lifecycle Open (pushMessage message) fun _ => Open := modify_open fun _ => rfl

theorem finishTurnDoc_run {doc : TaskDocument} (h : m.taskDoc = some doc) (outcome : PulseOutcome)
    (tokens : PulseTokens) :
    finishTurnDoc env outcome tokens m = some ((), [],
      { m with
        taskDoc := some (doc.finishTurn outcome tokens (env.clock m.clockReads)).1
        toolCallStartedAt := []
        clockReads := m.clockReads + 1 }) := by
  unfold finishTurnDoc
  rw [bind_of_some (read_run m)]
  simp only [h]
  rfl

theorem finishTurnDoc_closes (outcome : PulseOutcome) (tokens : PulseTokens) :
    Spec lifecycle Open (finishTurnDoc env outcome tokens) fun _ => Closed := by
  refine Spec.of_run fun m begun hopen => ?_
  obtain ⟨active, hactive, hbegun⟩ := hopen
  obtain ⟨doc, hdoc, hpulse⟩ := Option.bind_eq_some_iff.mp hactive
  refine ⟨_, _, _, begun, finishTurnDoc_run env hdoc outcome tokens, rfl, ?_, ?_⟩
  · simp only [activePulse, Option.bind_some, TaskDocument.finishTurn, hpulse]
  · rw [← hbegun]
    simp only [completedInputs, hdoc, TaskDocument.finishTurn, hpulse, List.map_append, List.map_singleton]

theorem returnTurn_closes (outcome : PulseOutcome) (tokens : PulseTokens) (result : Except String String) :
    Spec lifecycle Open (returnTurn env outcome tokens result) TurnInv :=
  Spec.bind (finishTurnDoc_closes env outcome tokens) fun _ =>
    Spec.bind (Spec.emit fun _ begun hclosed => ⟨begun, rfl, hclosed⟩) fun _ =>
      Spec.pure fun _ _ hclosed => hclosed

theorem returnGuarded_closes (message : String) : Spec lifecycle Open (returnGuarded env message) TurnInv :=
  Spec.bind (quiet_emitGuardLine message).keeps_open fun _ =>
    Spec.read_any fun _ => returnTurn_closes env _ _ _

/-! ### The beginning of a turn -/

theorem ensureTaskDoc_closed :
    Spec lifecycle Closed (ensureTaskDoc env) fun _ m begun =>
      m.Closed begun ∧ m.taskDoc.isSome := by
  refine Spec.of_run fun m begun hclosed => ?_
  unfold ensureTaskDoc
  cases hdoc : m.taskDoc with
  | some doc =>
    refine ⟨(), [], m, begun, ?_, rfl, hclosed, by rw [hdoc]; rfl⟩
    rw [bind_of_some (read_run m), prepend_nil]
    simp only [hdoc, pure_run]
  | none =>
    refine ⟨(), [], { m with
      taskDoc := some (TaskDocument.beginTask { updatedAtMs := env.clock m.clockReads })
      clockReads := m.clockReads + 1 }, begun, ?_, rfl, ⟨rfl, ?_⟩, rfl⟩
    · rw [bind_of_some (read_run m)]
      simp only [hdoc]
      rfl
    · rw [← hclosed.2]
      simp only [completedInputs, hdoc, TaskDocument.beginTask, List.map_nil]

theorem beginTurnDoc_run {doc doc' : TaskDocument} (h : m.taskDoc = some doc) {input : String}
    {toolPolicy : PulseToolPolicy}
    (hbegin : doc.beginTurn input (env.clock m.clockReads) toolPolicy = some doc') :
    beginTurnDoc env input toolPolicy m = some (true, [],
      { m with
        taskDoc := some doc'
        currentRoundStreamBlockCount := 0
        toolCallStartedAt := []
        clockReads := m.clockReads + 1 }) := by
  unfold beginTurnDoc
  rw [bind_of_some (read_run m)]
  simp only [h]
  rw [bind_of_some (readClock_run env m)]
  simp only [hbegin]
  rfl

/-- From a task document without an open pulse the assertion holds. -/
theorem beginTurnDoc_opens (input : String) (toolPolicy : PulseToolPolicy) :
    Spec lifecycle (fun m begun => m.Closed begun ∧ m.taskDoc.isSome)
      (beginTurnDoc env input toolPolicy)
      fun begun? m begun => begun? = true ∧ m.Open (begun ++ [input]) := by
  refine Spec.of_run fun m begun hm => ?_
  obtain ⟨⟨hidle, hcompleted⟩, hsome⟩ := hm
  obtain ⟨doc, hdoc⟩ := Option.isSome_iff_exists.mp hsome
  have hpulse : doc.activePulse = none := by
    rw [activePulse, hdoc] at hidle
    exact hidle
  obtain ⟨doc', hbegin⟩ : ∃ doc', doc.beginTurn input (env.clock m.clockReads) toolPolicy =
      some doc' := by simp [TaskDocument.beginTurn, hpulse]
  refine ⟨true, [], _, begun, beginTurnDoc_run env hdoc hbegin, rfl, rfl, ?_⟩
  simp only [TaskDocument.beginTurn, hpulse, Option.isSome_none, Bool.false_eq_true, if_false,
    Option.some.injEq] at hbegin
  subst hbegin
  refine ⟨_, rfl, ?_⟩
  rw [← hcompleted]
  simp only [completedInputs, hdoc]

theorem openTurn_spec (content : String) (turnToolPolicy : PulseToolPolicy)
    (sharedPrefixContext : Option String) (contextWindowTokens : ℕ) :
    Spec lifecycle (fun m begun => m.Open (begun ++ [content]))
      (openTurn env content turnToolPolicy sharedPrefixContext contextWindowTokens) TurnInv := by
  refine Spec.bind (R := fun _ => Open) (Spec.emit fun m begun h => ⟨_, rfl, h⟩) fun _ => ?_
  refine Spec.bind (pushMessage_open _) fun _ => ?_
  cases builtinSupportedGitToolsResponse content with
  | some response =>
    refine Spec.bind (pushMessage_open _) fun _ => ?_
    refine Spec.bind (quiet_emitStreamUpdate _).keeps_open fun _ => ?_
    exact returnTurn_closes env _ _ _
  | none => exact Spec.read_any fun _ => Spec.pure fun _ _ h => h

theorem sendMessage_spec (content : String) (turnToolPolicy : PulseToolPolicy)
    (sharedPrefixContext : Option String) (contextWindowTokens : ℕ) :
    Spec lifecycle Closed
      (sendMessage env content turnToolPolicy sharedPrefixContext contextWindowTokens) TurnInv := by
  refine Spec.bind (R := fun _ => Closed) (Spec.modify fun _ _ h => h) fun _ => ?_
  refine Spec.bind (ensureTaskDoc_closed env) fun _ => ?_
  refine Spec.bind (beginTurnDoc_opens env _ _) fun begun => Spec.of_pure fun hbegun => ?_
  rw [hbegun]
  exact openTurn_spec env _ _ _ _

/-! ### The rounds -/

variable (t : TurnState) (e : ToolRound) (call : ToolCall)

theorem condenseOld_spec : Spec lifecycle Open (condenseOld env t) TurnInv :=
  Spec.read_any fun _ => Spec.bind (setMessages_open _) fun _ => Spec.pure fun _ _ h => h

theorem compactProactively_spec : Spec lifecycle Open (compactProactively env t) TurnInv := by
  refine Spec.read_any fun m => Spec.bind (setMessages_open _) fun _ => ?_
  cases (proactiveCompaction env m t).2 with
  | none => exact Spec.pure fun _ _ h => h
  | some counts =>
    exact Spec.bind (quiet_emitStreamUpdate _).keeps_open fun _ => Spec.pure fun _ _ h => h

theorem startRound_spec : Spec lifecycle Open (startRound env t) TurnInv := by
  refine Spec.bind (modify_open fun _ => rfl) fun _ => Spec.read_any fun m => ?_
  refine Spec.bind (setMessages_open _) fun _ => ?_
  dsimp only
  split
  · exact Spec.bind (quiet_emitGuardLine _).keeps_open fun _ => returnTurn_closes env _ _ _
  · refine Spec.bind (Spec.onlyIf fun _ => pushMessage_open _) fun _ => Spec.read_any fun m => ?_
    exact Spec.bind (Spec.emit fun _ begun h => ⟨begun, rfl, h⟩) fun _ => Spec.pure fun _ _ h => h

theorem streamFailed_spec (message : String) : Spec lifecycle Open (streamFailed env t message) TurnInv := by
  unfold streamFailed
  split
  · refine Spec.read_any fun m => Spec.bind (setMessages_open _) fun _ => ?_
    exact Spec.bind (quiet_emitStreamUpdate _).keeps_open fun _ => Spec.pure fun _ _ h => h
  · exact returnTurn_closes env _ _ _

theorem endWithoutCalls_spec (text : String) : Spec lifecycle Open (endWithoutCalls env t text) TurnInv := by
  unfold endWithoutCalls
  dsimp only
  split
  · exact Spec.bind (pushMessage_open _) fun _ => Spec.pure fun _ _ h => h
  · split
    · exact returnGuarded_closes env _
    · refine Spec.bind (quiet_promoteThinkingBlocksToFinalText env).keeps_open fun _ => ?_
      exact Spec.bind (modify_open fun _ => rfl) fun _ => returnTurn_closes env _ _ _

theorem startCalls_spec (blocks : List ContentBlock) (useStructuredRound : Bool) :
    Spec lifecycle Open (startCalls env t blocks useStructuredRound) TurnInv := by
  unfold startCalls
  split
  · refine Spec.bind (Spec.forEach fun call _ => ?_) fun _ => Spec.pure fun _ _ h => h
    exact (quiet_setToolCallStatus env _ _).keeps_open
  · exact Spec.pure fun _ _ h => h

theorem endRound_spec (r : RoundState) : Spec lifecycle Open (endRound env t r) TurnInv := by
  unfold endRound
  dsimp only
  split
  · exact returnGuarded_closes env _
  · refine Spec.bind (pushMessage_open _) fun _ => Spec.bind (pushMessage_open _) fun _ => ?_
    exact Spec.pure fun _ _ h => h
  · refine Spec.bind (pushMessage_open _) fun _ => ?_
    split
    · exact endWithoutCalls_spec env _ _
    · exact startCalls_spec env _ _ _

theorem finishCalls_spec : Spec lifecycle Open (finishCalls t e) TurnInv :=
  Spec.bind (pushMessage_open _) fun _ => Spec.pure fun _ _ h => h

theorem takeCall_spec : Spec lifecycle Open (takeCall env t e call) TurnInv := by
  unfold takeCall
  split
  · exact Spec.bind (quiet_refuseCall env _ _ _).keeps_open fun _ => Spec.pure fun _ _ h => h
  split
  · refine Spec.bind (quiet_setToolCallStatus env _ _).keeps_open fun _ => ?_
    exact Spec.bind (quiet_emitStreamUpdate _).keeps_open fun _ => Spec.pure fun _ _ h => h
  · exact Spec.bind (quiet_setToolCallStatus env _ _).keeps_open fun _ =>
      Spec.pure fun _ _ h => h

theorem answerApproval_spec (approved : Bool) :
    Spec lifecycle Open (answerApproval env t e call approved) TurnInv := by
  cases approved with
  | true =>
    exact Spec.bind (quiet_setToolCallStatus env _ _).keeps_open fun _ => Spec.pure fun _ _ h => h
  | false => exact Spec.bind (quiet_denyCall env _ _).keeps_open fun _ => Spec.pure fun _ _ h => h

theorem recordResult_keeps_open (result : Except String String) :
    Spec lifecycle Open (recordResult env t e call result) fun _ => Open := by
  refine Spec.bind (quiet_setToolCallStatus env _ _).keeps_open fun _ => ?_
  refine Spec.bind (quiet_pushToolResultBlock env _ _ _).keeps_open fun _ => ?_
  refine Spec.bind (R := fun _ => Open) (Spec.read_any fun m => ?_) fun _ => Spec.pure fun _ _ h => h
  refine Spec.bind (Spec.forSome fun _ _ => Spec.emit fun _ begun h => ⟨begun, rfl, h⟩) fun _ => ?_
  exact Spec.bind (modify_open fun _ => rfl) fun _ => Spec.pure fun _ _ h => h

/-! ### Runs -/

/-- **One step** keeps the turn open or closes it, unless it is a cancellation. -/
theorem advance_lifecycle (phase : Phase) (event : Event) :
    event ≠ .cancel → Spec lifecycle (TurnInv phase) (advance env phase event) TurnInv := by
  refine advance_cases env
    (M := fun phase event x => event ≠ .cancel → Spec lifecycle (TurnInv phase) x TurnInv)
    ?crash ?send ?clear ?condensing ?compacting ?roundTop ?opened ?failed ?signal ?streamError ?ended
    ?roundEnd ?callsDone ?call ?approval ?tool ?tools ?recorded ?record ?cancel phase event
  case crash => exact fun _ _ _ => Spec.crash
  case send => exact fun _ _ _ _ _ => sendMessage_spec env _ _ _ _
  case clear =>
    intro _
    refine Spec.bind (R := fun _ m _ => m.Closed []) (Spec.modify fun _ _ _ => ⟨rfl, rfl⟩) fun _ => ?_
    exact Spec.bind (Spec.emit fun _ _ h => ⟨[], rfl, h⟩) fun _ => Spec.pure fun _ _ h => h
  case condensing => exact fun t _ => condenseOld_spec env t
  case compacting => exact fun t _ => compactProactively_spec env t
  case roundTop => exact fun t _ => startRound_spec env t
  case opened =>
    intro t _
    exact Spec.bind (Spec.emit fun _ begun h => ⟨begun, rfl, h⟩) fun _ => Spec.pure fun _ _ h => h
  case failed => exact fun t message _ => streamFailed_spec env t message
  case signal =>
    intro t r signal _
    exact Spec.bind (quiet_receiveSignal env t r signal).keeps_open fun _ => Spec.pure fun _ _ h => h
  case streamError => exact fun t r message _ => returnTurn_closes env _ _ _
  case ended => exact fun t r _ => Spec.pure fun _ _ h => h
  case roundEnd => exact fun t r _ => endRound_spec env t r
  case callsDone => exact fun t e _ _ => finishCalls_spec t e
  case call => exact fun t e call remaining _ _ => takeCall_spec env t _ call
  case approval => exact fun t e call approved _ => answerApproval_spec env t e call approved
  case tool =>
    intro t e call result _
    exact Spec.bind (recordResult_keeps_open env _ _ _ _) fun _ => Spec.pure fun _ _ h => h
  case tools => exact fun t e results _ _ => Spec.pure fun _ _ h => h
  case recorded => exact fun t e results _ _ => finishCalls_spec t e
  case record =>
    intro t e call remaining result results _ _
    exact Spec.bind (recordResult_keeps_open env _ _ _ _) fun _ => Spec.pure fun _ _ h => h
  case cancel => exact fun _ _ h => absurd rfl h

/-- Along a run without cancellations. -/
theorem turnInv_run {events : List Event} (hrun : run env events {} = some ((), reports, c))
    (hcancel : .cancel ∉ events) :
    ∃ begun, watch lifecycle [] reports = some begun ∧ TurnInv c.phase c.manager begun := by
  have hspec : Spec lifecycle (fun c begun => TurnInv c.phase c.manager begun) (run env events)
      fun _ c begun => TurnInv c.phase c.manager begun := by
    refine Spec.forEach fun event hmem c begun a out c' hinv hstep => ?_
    have hne : event ≠ .cancel := fun h => hcancel (h ▸ hmem)
    exact step_of_advance env (advance_lifecycle env c.phase event hne) hinv hstep
  exact hspec {} [] () reports c ⟨rfl, rfl⟩ hrun

/-- A call that has not returned has its turn open. -/
def CallOpen (c : Machine) : Prop := c.phase = .idle ∨ ∃ begun, c.manager.Open begun

theorem CallOpen.of_turnInv (h : TurnInv c.phase c.manager begun) : CallOpen c := by
  by_cases hidle : c.phase = .idle
  · exact Or.inl hidle
  · exact Or.inr ⟨begun, (turnInv_iff_open hidle).mp h⟩

/-- A message behind a cancelled call panics. -/
theorem sendMessage_open (hopen : m.activePulse.isSome = true) {content : String}
    {turnToolPolicy : PulseToolPolicy} {sharedPrefixContext : Option String}
    {contextWindowTokens : ℕ} {phase : Phase} {out : List Report}
    (hrun : sendMessage env content turnToolPolicy sharedPrefixContext contextWindowTokens m =
      some (phase, out, m')) : phase = .idle := by
  obtain ⟨active, hactive⟩ := Option.isSome_iff_exists.mp hopen
  obtain ⟨doc, hdoc, hpulse⟩ := Option.bind_eq_some_iff.mp hactive
  have hbegin : ∀ now, doc.beginTurn content now turnToolPolicy = none := fun now => by
    simp [TaskDocument.beginTurn, hpulse]
  unfold sendMessage ensureTaskDoc beginTurnDoc at hrun
  simp only [bind_run, modify_run, read_run, hdoc, pure_run, readClock_run, hbegin, prepend_some,
    emit_run, Bool.false_eq_true, if_false, Option.some.injEq, Prod.mk.injEq] at hrun
  exact hrun.1.symm

theorem step_callOpen {event : Event} {c' : Machine} {out : List Report} (h : CallOpen c)
    (hstep : step env event c = some ((), out, c')) : CallOpen c' := by
  have hadvance := advance_of_step env hstep
  by_cases hcancel : event = .cancel
  · have hdrop : advance env c.phase .cancel =
        if c.phase.isAwait then (do emit .cancelled; pure .idle) else Emitter.crash := by
      cases c.phase <;> rfl
    rw [hcancel, hdrop] at hadvance
    split at hadvance
    · simp only [bind_run, emit_run, pure_run, prepend_some, Option.some.injEq, Prod.mk.injEq]
        at hadvance
      exact Or.inl hadvance.1.symm
    · cases hadvance
  · have hkeep : ∀ begun, TurnInv c.phase c.manager begun → CallOpen c' := fun begun hinv => by
      obtain ⟨begun', -, hinv'⟩ :=
        step_of_advance env (advance_lifecycle env c.phase event hcancel) hinv hstep
      exact CallOpen.of_turnInv hinv'
    by_cases hidle : c.phase = .idle
    · cases hpulse : c.manager.activePulse with
      | none => exact hkeep c.manager.completedInputs (by rw [hidle]; exact ⟨hpulse, rfl⟩)
      | some active =>
        rw [hidle] at hadvance
        cases event with
        | send content policy sharedPrefix window =>
          exact Or.inl (sendMessage_open env (by rw [hpulse]; rfl) hadvance)
        | clear =>
          simp only [advance, clearMessages, bind_run, modify_run, emit_run, pure_run, prepend_some,
            Option.some.injEq, Prod.mk.injEq] at hadvance
          exact Or.inl hadvance.1.symm
        | cancel => exact absurd rfl hcancel
        | _ => cases hadvance
    · obtain ⟨begun, hopen⟩ := h.resolve_left hidle
      exact hkeep begun ((turnInv_iff_open hidle).mpr hopen)

theorem callOpen_run {events : List Event} (hrun : run env events {} = some ((), reports, c)) :
    CallOpen c := by
  have hspec : Spec (fun (_ : Unit) (_ : Report) => some ()) (fun c _ => CallOpen c) (run env events)
      fun _ c _ => CallOpen c :=
    Spec.forEach fun event _ c _ a out c' hopen hstep =>
      ⟨(), watch_of_ignored fun _ _ => rfl, step_callOpen env hopen hstep⟩
  obtain ⟨-, -, hopen⟩ := hspec {} () () reports c (Or.inl rfl) hrun
  exact hopen

/-- Every turn begun is accounted for: it is completed, in its place, or it is the open turn of the
call that stands in `c`; and the assertion that no pulse is open has not failed. -/
structure TurnsAccounted (reports : List Report) (c : Machine) : Prop where
  noPanic : .assertionFailed ∉ reports
  openIff : c.manager.activePulse.isSome ↔ c.phase ≠ .idle
  completed : c.manager.completedInputs ++ (c.manager.activePulse.map (·.input)).toList =
    begunInputs reports []

/-- **Turns under cancellation**: in a run in which no call is cancelled at an await, the assertion
that no pulse is open never fails, a turn is open exactly while its call runs, and every turn that
was begun has been completed once, in its place. -/
theorem turnsAccounted_run (events : List Event) (reports : List Report) (c : Machine)
    (hrun : run env events {} = some ((), reports, c)) (hcancel : .cancel ∉ events) :
    TurnsAccounted reports c := by
  obtain ⟨begun, hwatch, hinv⟩ := turnInv_run env hrun hcancel
  obtain ⟨hpanic, rfl⟩ := watch_lifecycle.mp hwatch
  by_cases hidle : c.phase = .idle
  · rw [hidle] at hinv
    obtain ⟨hnone, hcompleted⟩ := hinv
    refine ⟨hpanic, by simp [hnone, hidle], ?_⟩
    rw [hnone, hcompleted]
    simp
  · obtain ⟨active, hactive, hcompleted⟩ := (turnInv_iff_open hidle).mp hinv
    refine ⟨hpanic, by simp [hactive, hidle], ?_⟩
    rw [hactive, ← hcompleted]
    rfl

def answeredTurn : List Event :=
  sampleRequest "hi" ++ [.streamOpened, .signal (.transcriptBlockDelta 0 "hello"), .streamEnded, .tick]

theorem turnsAccounted_run_sample :
    ∃ reports c, run sampleEnvironment (answeredTurn ++ answeredTurn) {} = some ((), reports, c) ∧
      c.manager.completedInputs = ["hi", "hi"] ∧ TurnsAccounted reports c := by
  have h : ((run sampleEnvironment (answeredTurn ++ answeredTurn) {}).any fun result =>
      result.2.2.manager.completedInputs == ["hi", "hi"]) = true := by decide +kernel
  obtain ⟨⟨⟨⟩, reports, c⟩, hrun, hinputs⟩ := (Option.any_eq_true _ _).mp h
  exact ⟨reports, c, hrun, beq_iff_eq.mp hinputs,
    turnsAccounted_run sampleEnvironment _ reports c hrun (by decide)⟩

/-- A call is cancelled while it waits for the provider; the next message fails the assertion. -/
theorem cancelled_turn_stays_open :
    ∃ reports c, run sampleEnvironment
        (sampleRequest "hi" ++ [.cancel, .send "again" .default none 8192]) {} =
        some ((), reports, c) ∧ ¬ TurnsAccounted reports c := by
  have h : ((run sampleEnvironment
      (sampleRequest "hi" ++ [.cancel, .send "again" .default none 8192]) {}).any fun result =>
      decide (.assertionFailed ∈ result.2.1)) = true := by decide +kernel
  obtain ⟨⟨⟨⟩, reports, c⟩, hrun, hfailed⟩ := (Option.any_eq_true _ _).mp h
  exact ⟨reports, c, hrun, fun haccounted => haccounted.noPanic (of_decide_eq_true hfailed)⟩

end Vexcoder.Conversation

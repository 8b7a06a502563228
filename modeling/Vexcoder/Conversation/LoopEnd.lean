import Vexcoder.Conversation.LoopRuns

/-!
# The end of a call

No operation of the loop panics: whatever an await returns, the machine steps (`Phase.Awaits`).  With
the bounds of the run this is what is known of one call of `send_message`: how many streams it opens,
how often it retries, how often it goes round its loop, and that it goes on until it returns.
-/

namespace Vexcoder.Conversation

open Base Lib Lib.Assoc Lib.Emitter Vexcoder.Runtime Vexcoder.Task

/-! ### The operations do not panic -/

variable (env : Environment)

theorem total_applyDocDelta (signal : RuntimeSignal) : Total (applyDocDelta env signal) := by
  refine closed_total.bind closed_total.read fun m => ?_
  cases m.taskDoc with
  | none => exact Total.pure ()
  | some doc =>
    have hclock : Total (readClock env) :=
      closed_total.bind closed_total.read fun _ => Total.bind (Total.modify _) fun _ => Total.pure _
    exact Total.bind hclock fun _ => Total.modify _

theorem total_showsAll : ShowsAll env fun α => Total (α := α) where
  toClosed := closed_total
  doc signal _ := total_applyDocDelta env signal
  modify f _ := Total.modify f
  calm _ _ := Total.emit _
  emit _ := Total.emit _

theorem total_changesAll : ChangesAll env fun α => Total (α := α) where
  toWalk := (total_showsAll env).toWalk
  signal := total_applyDocDelta env
  change := Total.modify
  report report _ := Total.emit report

variable (t : TurnState)

theorem total_receiveSignal (r : RoundState) (signal : RuntimeSignal) :
    Total (receiveSignal env t r signal) :=
  (total_showsAll env).receiveAnySignal (total_applyDocDelta env) t r signal

theorem total_takeCall (e : ToolRound) (call : ToolCall) : Total (takeCall env t e call) := by
  have hstatus := (total_showsAll env).setToolCallStatus
  unfold takeCall
  cases guardClarification env t call with
  | some clarification =>
    exact Total.bind ((total_showsAll env).refuseCall _ _ _) fun _ => Total.pure _
  | none =>
    dsimp only
    split
    · exact Total.bind (hstatus _ _) fun _ => Total.bind (Total.emit _) fun _ => Total.pure _
    · exact Total.bind (hstatus _ _) fun _ => Total.pure _

theorem total_answerApproval (e : ToolRound) (call : ToolCall) (approved : Bool) :
    Total (answerApproval env t e call approved) := by
  cases approved with
  | true => exact Total.bind ((total_showsAll env).setToolCallStatus _ _) fun _ => Total.pure _
  | false => exact Total.bind ((total_showsAll env).refuseCall _ _ _) fun _ => Total.pure _

theorem total_recordResult (e : ToolRound) (call : ToolCall)
    (result : Except String String) : Total (recordResult env t e call result) := by
  refine Total.bind ((total_showsAll env).setToolCallStatus _ _) fun _ => ?_
  refine Total.bind ((total_showsAll env).pushToolResultBlock _ _ _) fun _ => ?_
  exact Total.bind ((total_changesAll env).formatForHistory _ _) fun _ => Total.pure _

/-! ### A call goes on until it returns -/

def Phase.Awaits : Phase → Event → Prop
  | .condensing _, .tick | .compacting _, .tick | .roundTop _, .tick | .roundEnd .., .tick
  | .executing .., .tick | .recording .., .tick => True
  | .requesting _, .streamOpened | .requesting _, .streamFailed _ => True
  | .streaming .., .signal _ | .streaming .., .streamError _ | .streaming .., .streamEnded => True
  | .approving .., .approvalAnswered _ | .running .., .toolFinished _ => True
  | .parallel _ e, .toolsFinished results => results.length = e.remaining.length
  | _, _ => False

theorem total_advance {phase : Phase} {event : Event} (h : phase.Awaits event) :
    Total (advance env phase event) := by
  cases phase with
  | idle => cases event <;> cases h
  | condensing t =>
    cases event with
    | tick => exact (total_changesAll env).condenseOld t
    | _ => cases h
  | compacting t =>
    cases event with
    | tick => exact (total_changesAll env).compactProactively t
    | _ => cases h
  | roundTop t =>
    cases event with
    | tick => exact (total_changesAll env).startRound t
    | _ => cases h
  | requesting t =>
    cases event with
    | streamOpened => exact Total.bind (Total.emit _) fun _ => Total.pure _
    | streamFailed message => exact (total_changesAll env).streamFailed t message
    | _ => cases h
  | streaming t r =>
    cases event with
    | signal signal => exact Total.bind (total_receiveSignal env t r signal) fun _ => Total.pure _
    | streamError message => exact (total_changesAll env).returnTurn _ _ _
    | streamEnded => exact Total.pure _
    | _ => cases h
  | roundEnd t r =>
    cases event with
    | tick => exact (total_changesAll env).endRound t r
    | _ => cases h
  | executing t e =>
    cases event with
    | tick =>
      simp only [advance]
      cases e.remaining with
      | nil => exact (total_changesAll env).finishCalls t e
      | cons call remaining => exact total_takeCall env t _ call
    | _ => cases h
  | approving t e call =>
    cases event with
    | approvalAnswered approved => exact total_answerApproval env t e call approved
    | _ => cases h
  | running t e call =>
    cases event with
    | toolFinished result =>
      exact Total.bind (total_recordResult env t e call result) fun _ => Total.pure _
    | _ => cases h
  | parallel t e =>
    cases event with
    | toolsFinished results =>
      have hlength : results.length = e.remaining.length := h
      simp only [advance]
      rw [if_pos hlength]
      exact Total.pure _
    | _ => cases h
  | recording t e results =>
    cases event with
    | tick =>
      simp only [advance]
      split
      · exact Total.bind (total_recordResult env t _ _ _) fun _ => Total.pure _
      · exact (total_changesAll env).finishCalls t e
    | _ => cases h

theorem exists_awaited {phase : Phase} (h : phase ≠ .idle) :
    ∃ event, phase.Awaits event ∧ event.isBetweenCalls = false ∧ event.isSignal = false := by
  cases phase with
  | idle => exact absurd rfl h
  | requesting t => exact ⟨.streamOpened, trivial, rfl, rfl⟩
  | streaming t r => exact ⟨.streamEnded, trivial, rfl, rfl⟩
  | approving t e call => exact ⟨.approvalAnswered false, trivial, rfl, rfl⟩
  | running t e call => exact ⟨.toolFinished (.ok ""), trivial, rfl, rfl⟩
  | parallel t e =>
    exact ⟨.toolsFinished (List.replicate e.remaining.length (.ok "")), List.length_replicate, rfl, rfl⟩
  | _ => exact ⟨.tick, trivial, rfl, rfl⟩

theorem step_of_awaits {c : Machine} {event : Event} (h : c.phase.Awaits event) :
    ∃ result, step env event c = some result := by
  obtain ⟨⟨phase, reports, manager⟩, hrun⟩ := total_advance env h c.manager
  exact ⟨((), reports, { manager, phase }), by rw [step, hrun]⟩

/-- Before a stream is opened the calls failed three times at most, since the stream in front of it. -/
theorem failures_between {c c' : Machine} {n : LoopCount} {reports : List Report}
    {earlier between later : List Event}
    (hcalls : ∀ event ∈ earlier ++ between ++ .streamOpened :: later, event.isBetweenCalls = false)
    (hinv : LoopInv env.resolveMaxToolRounds c.phase.place n)
    (hrun : run env (earlier ++ between ++ .streamOpened :: later) c = some ((), reports, c'))
    (hbetween : between.countP Event.isOpening = 0) : between.countP Event.isFailure ≤ 3 := by
  have hmem : ∀ event ∈ earlier ++ between, event.isBetweenCalls = false :=
    fun event h => hcalls event (List.mem_append_left _ h)
  rw [run, forEach_append] at hrun
  obtain ⟨⟨⟩, out, c₂, rest, hbefore, hopening, -⟩ := bind_eq_some hrun
  rw [forEach_append] at hbefore
  obtain ⟨⟨⟩, out₁, c₁, out₂, hearlier, hbetween', -⟩ := bind_eq_some hbefore
  have hfirst := loopRun env (fun event h => hmem event (List.mem_append_left _ h)) hinv hearlier
  have hsecond := loopRun env (fun event h => hmem event (List.mem_append_right _ h)) hfirst.inv hbetween'
  obtain ⟨⟨⟩, out₃, c₃, out₄, hstep, -, -⟩ := bind_eq_some hopening
  -- the stream is opened where `create_stream` is awaited
  have hplace : ∃ t, c₂.phase = .requesting t := by
    cases hphase : c₂.phase with
    | requesting t => exact ⟨t, rfl⟩
    | _ => simp [step, advance, hphase, crash] at hstep
  obtain ⟨t, ht⟩ := hplace
  have hinv₂ := hsecond.inv
  rw [ht] at hinv₂
  obtain ⟨-, -, hfailed, -⟩ := hinv₂
  rw [hsecond.failed hbetween] at hfailed
  omega

/-- What a run of one call satisfies, from the call of `send_message` on. -/
structure LoopBounded (c : Machine) (call : Event) (events : List Event) (c' : Machine) : Prop where
  /-- The calls of `create_stream` that succeed. -/
  opened : events.countP Event.isOpening ≤ env.resolveMaxToolRounds + 1
  /-- The calls that fail in front of one that succeeds, and behind the one before it. -/
  failed : ∀ earlier between later, events = earlier ++ between ++ .streamOpened :: later →
    between.countP Event.isOpening = 0 → between.countP Event.isFailure ≤ 3
  passes : loopPasses env c (call :: events) ≤ 4 * (env.resolveMaxToolRounds + 1)
  /-- A pass takes boundedly many steps besides the signals of its stream. -/
  length : events.length ≤ 2 + 7 * loopPasses env c (call :: events) + 4 * events.countP Event.isSignal
  /-- The call has returned, or the machine waits for an event, and steps whatever it is. -/
  goesOn : c'.phase ≠ .idle →
    (∃ event, c'.phase.Awaits event ∧ event.isBetweenCalls = false ∧ event.isSignal = false) ∧
      ∀ event, c'.phase.Awaits event → ∃ result, step env event c' = some result

/-- **The agent loop is bounded.** -/
theorem send_message_bounded (m : ConversationManager) (content : String) (policy : PulseToolPolicy)
    (context : Option String) (window : ℕ) (events : List Event)
    (hcall : ∀ event ∈ events, event.isBetweenCalls = false) (reports : List Report) (c' : Machine)
    (hrun : run env (.send content policy context window :: events) { manager := m, phase := .idle } =
      some ((), reports, c')) :
    LoopBounded env { manager := m, phase := .idle } (.send content policy context window) events
      c' := by
  obtain ⟨⟨⟩, out, c₁, out', hsend, hrest, -⟩ := bind_eq_some hrun
  obtain ⟨hmove, hweight⟩ := advance_moves env .idle (.send content policy context window) m c₁.phase
    out c₁.manager (advance_of_step env hsend)
  have hinv : LoopInv env.resolveMaxToolRounds c₁.phase.place {} := by
    show LoopInv env.resolveMaxToolRounds c₁.phase.place ({} : LoopCount)
    cases hmove' : c₁.phase.place with
    | outside => exact ⟨Nat.zero_le _, Nat.zero_le _, Nat.zero_le _⟩
    | opening k =>
      rw [hmove'] at hmove
      cases hmove
      exact ⟨rfl, rfl⟩
    | _ =>
      rw [hmove'] at hmove
      cases hmove
  have hpasses : loopPasses env { manager := m, phase := .idle }
      (.send content policy context window :: events) = loopPasses env c₁ events := by
    rw [loopPasses, loopTrace_cons env hsend, List.countP_cons, ← loopPasses]
    rfl
  have hend := loopRun env hcall hinv hrest
  have hbounded := hend.inv.bounded
  refine ⟨?_, ?_, ?_, ?_, ?_⟩
  · have hopened := hend.opened
    have hnone : ({} : LoopCount).opened = 0 := rfl
    omega
  · intro earlier between later hevents hbetween
    subst hevents
    exact failures_between env hcall hinv hrest hbetween
  · have hcount := hend.passes
    have hnone : ({} : LoopCount).passes = 0 := rfl
    omega
  · have hlength := hend.length
    have hbegun : c₁.phase.weight ≤ 2 := hweight
    omega
  · exact fun hwithin => ⟨exists_awaited hwithin, fun event => step_of_awaits env⟩

def overflownCall : List Event :=
  [.tick, .tick, .tick, .streamFailed "context length exceeded", .tick] ++ sampleRead "t1"

theorem overflown_call_bounded :
    ∃ reports c, run sampleEnvironment (.send "read a" .default none 8192 :: overflownCall) {} =
      some ((), reports, c) ∧ c.phase ≠ .idle ∧
      LoopBounded sampleEnvironment {} (.send "read a" .default none 8192) overflownCall c := by
  have h : ((run sampleEnvironment (.send "read a" .default none 8192 :: overflownCall) {}).any
      fun result => decide (result.2.2.phase ≠ .idle)) = true := by decide +kernel
  obtain ⟨⟨⟨⟩, reports, c⟩, hrun, hphase⟩ := (Option.any_eq_true _ _).mp h
  exact ⟨reports, c, hrun, of_decide_eq_true hphase,
    send_message_bounded sampleEnvironment {} "read a" .default none 8192 overflownCall (by decide)
      reports c hrun⟩

end Vexcoder.Conversation

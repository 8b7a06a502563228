import Vexcoder.Base.Text

/-!
# The edit loop

`EditLoop::run` drives one model turn after the other, validates what a turn has edited, and carries two
things from turn to turn: the retry context that goes behind the instruction, and the last validation
result, which is kept in the loop and outlives the run.

`Contract` is what a run owes its caller.  It fails in two places only (`contract_iff`): a turn whose
validation passes leaves an older retry context in place, and a run without a validation of its own
reports the result of an earlier one.
-/

namespace Vexcoder.Runtime

open Base

namespace Validation

structure ValidationOutput where
  label : String
  exitCode : ℤ
  stdoutTail : String
  stderrTail : String
  stdoutTailLimited : Bool
  stderrTailLimited : Bool

structure ValidationResult where
  passed : Bool
  outputs : List ValidationOutput

/-- What `format_for_retry` writes of one of the two streams. -/
def formatTail (stream tail : String) (limited : Bool) : String :=
  if Text.isEmpty tail then ""
  else
    (if limited then "[showing last 8192 bytes of " ++ stream ++ "]\n" else "") ++
      stream ++ ":\n```text\n" ++ tail ++ (if Text.endsWith tail "\n" then "" else "\n") ++ "```\n"

def formatOutput (output : ValidationOutput) : String :=
  "\n[command: " ++ output.label ++ "]\nexit_code: " ++ toString output.exitCode ++ "\n" ++
    formatTail "stdout" output.stdoutTail output.stdoutTailLimited ++
    formatTail "stderr" output.stderrTail output.stderrTailLimited

def formatForRetry (result : ValidationResult) : String :=
  if result.passed then "[validation passed]"
  else
    "[validation failed]\n" ++
      Text.join "" ((result.outputs.filter fun output => output.exitCode ≠ 0).map formatOutput)

end Validation

open Validation

/-- What `run` reads and writes of the loop. -/
structure EditLoop where
  maxTurns : UInt8
  stopOnCleanValidate : Bool
  lastValidationResult : Option ValidationResult

inductive EditLoopOutcome where
  | success (patchApplied validatePassed : Bool)
  | maxTurnsReached (lastError : Option String)
  | approvalDenied
  | cancelled

/-- What one pulse of the loop meets: the token before and behind the turn, what `drive_edit_turn` comes
back with (whether a patch was applied), and what the validation does. -/
structure PulseInput where
  cancelledBefore : Bool
  turn : Except String Bool
  cancelledBehind : Bool
  validation : Except String ValidationResult

inductive LoopEvent where
  | line (text : String)
  | cancelCheck (seen : Bool)
  | turn (message : String) (result : Except String Bool)
  | validated (result : ValidationResult)

/-- How a pulse ends: with the loop going on, or with its result. -/
inductive Flow where
  | next (retryContext : String) (last : Option ValidationResult)
  | stop (last : Option ValidationResult) (result : Except String EditLoopOutcome)

namespace EditLoop

def messageWith (instruction retryContext : String) : String :=
  if Text.isEmpty retryContext then instruction else instruction ++ "\n\n" ++ retryContext

def failedContext (error : String) : String := "[previous pulse failed: " ++ error ++ "]"

def noPatchContext : String :=
  "[previous pulse produced no patch; propose and apply a concrete edit]"

def describe (result : ValidationResult) : Option String :=
  if result.passed then none
  else
    match result.outputs.find? fun output => output.exitCode ≠ 0 with
    | some output => some (output.label ++ " exited with " ++ toString output.exitCode)
    | none => some "validation failed"

def lastValidationError (last : Option ValidationResult) : Option String := last.bind describe

variable (loop : EditLoop) (instruction : String)

/-- The body of the loop of `run`. -/
def runPulse (pulse : ℕ) (input : PulseInput) (retryContext : String)
    (last : Option ValidationResult) : List LoopEvent × Flow :=
  if input.cancelledBefore then ([.cancelCheck true], .stop last (.ok .cancelled))
  else
    let message := messageWith instruction retryContext
    let started : List LoopEvent :=
      [.cancelCheck false,
        .line ("[edit loop pulse " ++ toString (pulse + 1) ++ "/" ++ toString loop.maxTurns ++ "]"),
        .turn message input.turn]
    match input.turn with
    | .error error =>
      (started ++ [.line ("[edit loop pulse error: " ++ error ++ "]")],
        .next (failedContext error) last)
    | .ok patchApplied =>
      if input.cancelledBehind then
        (started ++ [.cancelCheck true], .stop last (.ok .cancelled))
      else if !patchApplied then
        (started ++ [.cancelCheck false, .line "[edit loop: no patch applied, retrying]"],
          .next noPatchContext last)
      else
        let validating := started ++ [.cancelCheck false, .line "[edit loop: running validation]"]
        match input.validation with
        | .error error => (validating, .stop last (.error error))
        | .ok result =>
          if result.passed then
            let passed :=
              validating ++ [.validated result, .line "[edit loop: validation passed]"]
            if loop.stopOnCleanValidate then
              (passed, .stop (some result) (.ok (.success patchApplied true)))
            else (passed, .next retryContext (some result))
          else
            (validating ++
                [.validated result, .line "[edit loop: validation failed, retrying]"],
              .next (formatForRetry result) (some result))

/-- A finished run: its events, what it returns, and the result it leaves in the loop. -/
structure LoopRun where
  events : List LoopEvent
  result : Except String EditLoopOutcome
  last : Option ValidationResult

/-- The loop of `run` with `remaining` pulses to go. -/
def runPulses (inputs : ℕ → PulseInput) : ℕ → ℕ → String → Option ValidationResult → LoopRun
  | 0, _, _, last => ⟨[], .ok (.maxTurnsReached (lastValidationError last)), last⟩
  | remaining + 1, pulse, retryContext, last =>
    match loop.runPulse instruction pulse (inputs pulse) retryContext last with
    | (events, .stop last result) => ⟨events, result, last⟩
    | (events, .next retryContext last) =>
      let rest := runPulses inputs remaining (pulse + 1) retryContext last
      { rest with events := events ++ rest.events }

def dirtyWarning : Except String Bool → List LoopEvent
  | .ok true =>
    [.line
      "[edit loop warning: workspace has uncommitted changes; proceeding without mutating git state]"]
  | .ok false => []
  | .error error => [.line ("[edit loop warning: skipped workspace-dirty check: " ++ error ++ "]")]

/-- `run`; `dirty` is what `check_workspace_dirty` finds. -/
def run (dirty : Except String Bool) (inputs : ℕ → PulseInput) : LoopRun × EditLoop :=
  let pulses := loop.runPulses instruction inputs loop.maxTurns.toNat 0 "" loop.lastValidationResult
  ({ pulses with events := dirtyWarning dirty ++ pulses.events },
    { loop with lastValidationResult := pulses.last })

/-! ### What a run owes its caller -/

def turnMessages : List LoopEvent → List String :=
  List.filterMap fun event => match event with
    | .turn message _ => some message
    | _ => none

/-- Every message is the instruction with the feedback about the turn in front of it: its error, that it
left no patch, or that its validation failed.  A turn whose validation passed leaves none. -/
def MessagesFollow : String → List LoopEvent → Prop
  | _, [] => True
  | feedback, .turn message result :: events =>
    message = messageWith instruction feedback ∧
      MessagesFollow
        (match result with
          | .error error => failedContext error
          | .ok false => noPatchContext
          | .ok true => "") events
  | _, .validated result :: events =>
    MessagesFollow (if result.passed then "" else formatForRetry result) events
  | feedback, .line _ :: events => MessagesFollow feedback events
  | feedback, .cancelCheck _ :: events => MessagesFollow feedback events

def NoTurnBehindCancel (events : List LoopEvent) : Prop :=
  ∀ front behind, events = front ++ .cancelCheck true :: behind → turnMessages behind = []

/-- The last turn applied a patch, and the one validation behind it passed. -/
def EndsValidated (events : List LoopEvent) : Prop :=
  ∃ front message between result behind,
    events = front ++ .turn message (.ok true) :: (between ++ .validated result :: behind) ∧
      turnMessages (between ++ behind) = [] ∧ (∀ other, .validated other ∉ between ++ behind) ∧
      result.passed = true

structure Contract (r : LoopRun) : Prop where
  bounded : (turnMessages r.events).length ≤ loop.maxTurns.toNat
  success : ∀ patchApplied validatePassed,
    r.result = .ok (.success patchApplied validatePassed) → EndsValidated r.events
  cancelled : .cancelCheck true ∈ r.events → r.result = .ok .cancelled
  stopped : NoTurnBehindCancel r.events
  messages : MessagesFollow instruction "" r.events
  lastError : ∀ error, r.result = .ok (.maxTurnsReached (some error)) →
    ∃ result, .validated result ∈ r.events ∧ describe result = some error

/-! ### How a pulse ends -/

inductive PulseEnd where
  | cancelled
  | failed (error : String)
  | noPatch
  | broken (error : String)
  | clean (result : ValidationResult)
  | unclean (result : ValidationResult)

def pulseEnd (input : PulseInput) : PulseEnd :=
  if input.cancelledBefore then .cancelled
  else
    match input.turn with
    | .error error => .failed error
    | .ok patchApplied =>
      if input.cancelledBehind then .cancelled
      else if !patchApplied then .noPatch
      else
        match input.validation with
        | .error error => .broken error
        | .ok result => if result.passed then .clean result else .unclean result

namespace PulseEnd

def GoesOn (stopOnCleanValidate : Bool) : PulseEnd → Prop
  | cancelled | broken _ => False
  | failed _ | noPatch | unclean _ => True
  | clean _ => stopOnCleanValidate = false

def GivesFeedback : PulseEnd → Prop
  | failed _ | noPatch | unclean _ => True
  | cancelled | broken _ | clean _ => False

def IsClean : PulseEnd → Prop
  | clean _ => True
  | _ => False

def Unvalidated : PulseEnd → Prop
  | failed _ | noPatch => True
  | _ => False

end PulseEnd

variable {loop instruction}

variable (loop instruction) in
/-- What a pulse does, for each way in which it ends. -/
inductive PulseRuns (input : PulseInput) (retryContext : String) (last : Option ValidationResult) :
    PulseEnd → List LoopEvent × Flow → Prop
  | unstarted (h : input.cancelledBefore = true) : PulseRuns input retryContext last .cancelled
      ([.cancelCheck true], .stop last (.ok .cancelled))
  | cancelled (start : String) (result : Except String Bool) :
      PulseRuns input retryContext last .cancelled
        ([.cancelCheck false, .line start, .turn (messageWith instruction retryContext) result,
          .cancelCheck true], .stop last (.ok .cancelled))
  | failed (error start report : String) : PulseRuns input retryContext last (.failed error)
      ([.cancelCheck false, .line start, .turn (messageWith instruction retryContext) (.error error),
        .line report], .next (failedContext error) last)
  | noPatch (start report : String) : PulseRuns input retryContext last .noPatch
      ([.cancelCheck false, .line start, .turn (messageWith instruction retryContext) (.ok false),
        .cancelCheck false, .line report], .next noPatchContext last)
  | broken (error start report : String) : PulseRuns input retryContext last (.broken error)
      ([.cancelCheck false, .line start, .turn (messageWith instruction retryContext) (.ok true),
        .cancelCheck false, .line report], .stop last (.error error))
  | clean (result : ValidationResult) (start report passed : String) (h : result.passed = true) :
      PulseRuns input retryContext last (.clean result)
        ([.cancelCheck false, .line start, .turn (messageWith instruction retryContext) (.ok true),
          .cancelCheck false, .line report, .validated result, .line passed],
          if loop.stopOnCleanValidate then .stop (some result) (.ok (.success true true))
          else .next retryContext (some result))
  | unclean (result : ValidationResult) (start report failed : String) (h : result.passed = false) :
      PulseRuns input retryContext last (.unclean result)
        ([.cancelCheck false, .line start, .turn (messageWith instruction retryContext) (.ok true),
          .cancelCheck false, .line report, .validated result, .line failed],
          .next (formatForRetry result) (some result))

variable (loop instruction) in
theorem runPulse_runs (pulse : ℕ) (input : PulseInput) (retryContext : String)
    (last : Option ValidationResult) :
    PulseRuns loop instruction input retryContext last (pulseEnd input)
      (loop.runPulse instruction pulse input retryContext last) := by
  obtain ⟨cancelledBefore, turn, cancelledBehind, validation⟩ := input
  cases cancelledBefore with
  | true => exact .unstarted rfl
  | false =>
    cases turn with
    | error error => exact .failed _ _ _
    | ok patchApplied =>
      cases cancelledBehind with
      | true => exact .cancelled _ _
      | false =>
        cases patchApplied with
        | false => exact .noPatch _ _
        | true =>
          cases validation with
          | error error => exact .broken _ _ _
          | ok result =>
            obtain ⟨passed, outputs⟩ := result
            cases passed with
            | false => exact .unclean _ _ _ _ rfl
            | true =>
              obtain ⟨maxTurns, stopOnCleanValidate, lastResult⟩ := loop
              cases stopOnCleanValidate with
              | false | true => exact .clean _ _ _ _ rfl

/-! ### Pulses behind which the loop goes on -/

def Calm (events : List LoopEvent) : Prop :=
  .cancelCheck true ∉ events ∧ (turnMessages events).length = 1

theorem turnMessages_append (s t : List LoopEvent) :
    turnMessages (s ++ t) = turnMessages s ++ turnMessages t := List.filterMap_append

/-- The part of the contract that every run keeps, for what is left of a run with `remaining` pulses. -/
structure Sound (remaining : ℕ) (r : LoopRun) : Prop where
  bounded : (turnMessages r.events).length ≤ remaining
  success : ∀ patchApplied validatePassed,
    r.result = .ok (.success patchApplied validatePassed) → EndsValidated r.events
  cancelled : .cancelCheck true ∈ r.events → r.result = .ok .cancelled
  stopped : NoTurnBehindCancel r.events

variable {events : List LoopEvent} {remaining pulse : ℕ} {r : LoopRun} {retryContext : String}
  {inputs : ℕ → PulseInput}

theorem NoTurnBehindCancel.behind (hcalm : .cancelCheck true ∉ events) {rest : List LoopEvent}
    (h : NoTurnBehindCancel rest) : NoTurnBehindCancel (events ++ rest) := by
  intro front behind heq
  rcases List.append_eq_append_iff.mp heq with ⟨mid, -, hrest⟩ | ⟨mid, hevents, hrest⟩
  · exact h mid behind hrest
  cases mid with
  | nil => exact h [] behind hrest.symm
  | cons event mid =>
    obtain ⟨rfl, -⟩ := List.cons.inj hrest
    exact absurd (by simp [hevents]) hcalm

theorem noTurnBehindCancel_of_not_mem (h : .cancelCheck true ∉ events) :
    NoTurnBehindCancel events := by
  intro front behind heq
  exact absurd (by simp [heq]) h

theorem noTurnBehindCancel_of_last (seen : Bool) : NoTurnBehindCancel [.cancelCheck seen] := by
  intro front behind heq
  have hlen : 1 = (front ++ .cancelCheck true :: behind).length := congrArg List.length heq
  rw [List.length_append, List.length_cons] at hlen
  obtain rfl : behind = [] := List.length_eq_zero_iff.mp (by omega)
  rfl

theorem Sound.calm (h : Sound remaining r) (hcalm : Calm events) :
    Sound (remaining + 1) { r with events := events ++ r.events } where
  bounded := by
    show (turnMessages (events ++ r.events)).length ≤ remaining + 1
    rw [turnMessages_append, List.length_append, hcalm.2]
    have := h.bounded
    omega
  success := by
    intro patchApplied validatePassed hresult
    obtain ⟨front, message, between, result, behind, hevents, hends⟩ :=
      h.success patchApplied validatePassed hresult
    refine ⟨events ++ front, message, between, result, behind, ?_, hends⟩
    show events ++ r.events = _
    rw [hevents, List.append_assoc]
  cancelled := by
    intro hseen
    exact h.cancelled ((List.mem_append.mp hseen).resolve_left hcalm.1)
  stopped := h.stopped.behind hcalm.1

variable (loop instruction) in
theorem runPulses_sound (inputs : ℕ → PulseInput) (remaining pulse : ℕ) (retryContext : String)
    (last : Option ValidationResult) :
    Sound remaining (loop.runPulses instruction inputs remaining pulse retryContext last) := by
  induction remaining generalizing pulse retryContext last with
  | zero => exact ⟨Nat.le_refl 0, nofun, nofun, noTurnBehindCancel_of_not_mem (by simp [runPulses])⟩
  | succ remaining ih =>
    have hruns := runPulse_runs loop instruction pulse (inputs pulse) retryContext last
    rw [runPulses]
    generalize pulseEnd (inputs pulse) = ending,
      loop.runPulse instruction pulse (inputs pulse) retryContext last = step at hruns ⊢
    cases hruns with
    | unstarted h => exact ⟨Nat.zero_le _, nofun, fun _ => rfl, noTurnBehindCancel_of_last true⟩
    | cancelled start result =>
      have hcalm : LoopEvent.cancelCheck true ∉ [.cancelCheck false, .line start,
          .turn (messageWith instruction retryContext) result] := by simp
      exact ⟨by simp [turnMessages], nofun, fun _ => rfl, (noTurnBehindCancel_of_last true).behind hcalm⟩
    | failed error start report | noPatch start report | unclean result start report failed h =>
      exact (ih _ _ _).calm ⟨by simp, rfl⟩
    | broken error start report =>
      exact ⟨by simp [turnMessages], nofun, by simp, noTurnBehindCancel_of_not_mem (by simp)⟩
    | clean result start report passed hpassed =>
      cases hstop : loop.stopOnCleanValidate with
      | false => exact (ih _ _ _).calm ⟨by simp, rfl⟩
      | true =>
        refine ⟨by simp [turnMessages], fun _ _ _ => ?_, by simp, noTurnBehindCancel_of_not_mem (by simp)⟩
        exact ⟨[_, _], _, [_, _], result, [_], rfl, rfl, by simp, hpassed⟩

/-! ### Feedback that is too old -/

theorem messageWith_eq_iff :
    messageWith instruction retryContext = messageWith instruction "" ↔ retryContext = "" := by
  constructor
  · intro h
    by_contra hne
    have hlen := congrArg String.toList h
    rw [messageWith, if_neg (mt Text.isEmpty_iff.mp hne), messageWith,
      if_pos (Text.isEmpty_iff.mpr rfl), String.toList_append] at hlen
    have := congrArg List.length hlen
    simp at this
  · rintro rfl
    rfl

/-- The `count` pulses from `pulse` on end as `P` says. -/
def AllPulses (P : PulseEnd → Prop) (inputs : ℕ → PulseInput) (pulse count : ℕ) : Prop :=
  ∀ i < count, P (pulseEnd (inputs (pulse + i)))

variable (loop) in
/-- Behind a pulse with feedback, one whose validation passes and then one more turn. -/
def Stale (inputs : ℕ → PulseInput) (remaining pulse : ℕ) : Prop :=
  ∃ j, j + 2 < remaining ∧ AllPulses (PulseEnd.GoesOn loop.stopOnCleanValidate) inputs pulse (j + 2) ∧
    (pulseEnd (inputs (pulse + j))).GivesFeedback ∧
    (pulseEnd (inputs (pulse + (j + 1)))).IsClean ∧
    (inputs (pulse + (j + 2))).cancelledBefore = false

variable (loop) in
/-- The same, with the feedback given already. -/
def StaleNow (inputs : ℕ → PulseInput) (remaining pulse : ℕ) : Prop :=
  1 < remaining ∧ (pulseEnd (inputs pulse)).GoesOn loop.stopOnCleanValidate ∧
    (pulseEnd (inputs pulse)).IsClean ∧ (inputs (pulse + 1)).cancelledBefore = false

theorem allPulses_succ {P : PulseEnd → Prop} {count : ℕ} :
    AllPulses P inputs pulse (count + 1) ↔
      P (pulseEnd (inputs pulse)) ∧ AllPulses P inputs (pulse + 1) count := by
  constructor
  · intro h
    refine ⟨h 0 (Nat.succ_pos count), fun i hi => ?_⟩
    rw [show pulse + 1 + i = pulse + (i + 1) by omega]
    exact h (i + 1) (by omega)
  · rintro ⟨hfirst, hrest⟩ i hi
    cases i with
    | zero => exact hfirst
    | succ i =>
      rw [show pulse + (i + 1) = pulse + 1 + i by omega]
      exact hrest i (by omega)

theorem stale_succ :
    loop.Stale inputs (remaining + 1) pulse ↔
      (pulseEnd (inputs pulse)).GoesOn loop.stopOnCleanValidate ∧
        (loop.Stale inputs remaining (pulse + 1) ∨
          (pulseEnd (inputs pulse)).GivesFeedback ∧ loop.StaleNow inputs remaining (pulse + 1)) := by
  constructor
  · rintro ⟨j, hj, hreaches, hfeedback, hclean, hnext⟩
    obtain ⟨hfirst, hrest⟩ := allPulses_succ.mp hreaches
    refine ⟨hfirst, ?_⟩
    cases j with
    | zero => exact .inr ⟨hfeedback, by omega, (allPulses_succ.mp hrest).1, hclean, hnext⟩
    | succ j =>
      refine .inl ⟨j, by omega, hrest, ?_⟩
      rw [show pulse + 1 + j = pulse + (j + 1) by omega,
        show pulse + 1 + (j + 1) = pulse + (j + 1 + 1) by omega,
        show pulse + 1 + (j + 2) = pulse + (j + 1 + 2) by omega]
      exact ⟨hfeedback, hclean, hnext⟩
  · rintro ⟨hfirst, ⟨j, hj, hreaches, hstale⟩ | ⟨hfeedback, hlong, hgoes, hclean, hnext⟩⟩
    · refine ⟨j + 1, by omega, allPulses_succ.mpr ⟨hfirst, hreaches⟩, ?_⟩
      rw [show pulse + (j + 1) = pulse + 1 + j by omega,
        show pulse + (j + 1 + 1) = pulse + 1 + (j + 1) by omega,
        show pulse + (j + 1 + 2) = pulse + 1 + (j + 2) by omega]
      exact hstale
    · refine ⟨0, by omega, allPulses_succ.mpr ⟨hfirst, fun i hi => ?_⟩, hfeedback, hclean, hnext⟩
      obtain rfl : i = 0 := by omega
      exact hgoes

theorem not_staleNow (h : ¬ (pulseEnd (inputs pulse)).IsClean) : ¬ loop.StaleNow inputs remaining pulse :=
  fun hnow => h hnow.2.2.1

theorem append_ne_empty {s t : String} (h : s ≠ "") : s ++ t ≠ "" :=
  fun hempty => h (String.append_eq_empty_iff.mp hempty).1

theorem failedContext_ne_empty (error : String) : failedContext error ≠ "" :=
  append_ne_empty (append_ne_empty (by decide))

theorem formatForRetry_ne_empty {result : ValidationResult} (h : result.passed = false) :
    formatForRetry result ≠ "" := by
  rw [formatForRetry, if_neg (by simp [h])]
  exact append_ne_empty (by decide)

variable (loop instruction) in
theorem runPulse_starts (pulse : ℕ) {input : PulseInput} (retryContext : String)
    (last : Option ValidationResult) (h : input.cancelledBefore = false) :
    ∃ start result rest, (loop.runPulse instruction pulse input retryContext last).1 =
      .cancelCheck false :: .line start :: .turn (messageWith instruction retryContext) result :: rest := by
  have hruns := runPulse_runs loop instruction pulse input retryContext last
  generalize pulseEnd input = ending,
    loop.runPulse instruction pulse input retryContext last = step at hruns ⊢
  cases hruns with
  | unstarted hbefore =>
    rw [h] at hbefore
    cases hbefore
  | _ => exact ⟨_, _, _, rfl⟩

variable (loop instruction) in
/-- With an old retry context and no feedback due, no further turn may come. -/
theorem messagesFollow_old (inputs : ℕ → PulseInput) (remaining pulse : ℕ)
    (last : Option ValidationResult) (hold : retryContext ≠ "") :
    MessagesFollow instruction ""
        (loop.runPulses instruction inputs remaining pulse retryContext last).events ↔
      remaining = 0 ∨ (inputs pulse).cancelledBefore = true := by
  cases remaining with
  | zero => exact ⟨fun _ => .inl rfl, fun _ => trivial⟩
  | succ remaining =>
    rw [runPulses]
    cases hbefore : (inputs pulse).cancelledBefore with
    | true =>
      rw [runPulse, if_pos hbefore]
      exact ⟨fun _ => .inr rfl, fun _ => trivial⟩
    | false =>
      obtain ⟨start, result, rest, hstarts⟩ := runPulse_starts loop instruction pulse
        retryContext last hbefore
      have hnot : ∀ events, ¬ MessagesFollow instruction ""
          ((loop.runPulse instruction pulse (inputs pulse) retryContext last).1 ++ events) := by
        intro events h
        rw [hstarts] at h
        exact hold (messageWith_eq_iff.mp h.1)
      refine iff_of_false ?_ (by simp)
      cases hrun : loop.runPulse instruction pulse (inputs pulse) retryContext last with
      | mk events flow =>
        rw [hrun] at hnot
        cases flow with
        | stop last' result' => exact fun h => hnot [] (by rwa [List.append_nil])
        | next retryContext' last' => exact hnot _

variable (loop instruction) in
theorem messagesFollow_iff (inputs : ℕ → PulseInput) (remaining pulse : ℕ) (retryContext : String)
    (last : Option ValidationResult) :
    MessagesFollow instruction retryContext
        (loop.runPulses instruction inputs remaining pulse retryContext last).events ↔
      ¬ (loop.Stale inputs remaining pulse ∨
        retryContext ≠ "" ∧ loop.StaleNow inputs remaining pulse) := by
  induction remaining generalizing pulse retryContext last with
  | zero =>
    refine iff_of_true trivial ?_
    rintro (⟨j, hj, -⟩ | ⟨-, hlong, -⟩)
    · exact absurd hj (Nat.not_lt_zero _)
    · exact absurd hlong (Nat.not_lt_zero _)
  | succ remaining ih =>
    have hruns := runPulse_runs loop instruction pulse (inputs pulse) retryContext last
    rw [stale_succ, runPulses]
    have hnow : ¬ (pulseEnd (inputs pulse)).IsClean →
        ¬ loop.StaleNow inputs (remaining + 1) pulse := not_staleNow
    generalize hend : pulseEnd (inputs pulse) = ending at hruns hnow ⊢
    generalize loop.runPulse instruction pulse (inputs pulse) retryContext last = step at hruns ⊢
    cases hruns with
    | unstarted h => exact iff_of_true trivial (by simp [PulseEnd.GoesOn, hnow id])
    | cancelled start result =>
      exact iff_of_true (by simp [MessagesFollow]) (by simp [PulseEnd.GoesOn, hnow id])
    | failed error start report =>
      simp [MessagesFollow, ih, PulseEnd.GoesOn, PulseEnd.GivesFeedback, hnow id,
        failedContext_ne_empty]
    | noPatch start report =>
      have hne : noPatchContext ≠ "" := by decide
      simp [MessagesFollow, ih, PulseEnd.GoesOn, PulseEnd.GivesFeedback, hnow id, hne]
    | broken error start report => simp [MessagesFollow, PulseEnd.GoesOn, hnow id]
    | unclean result start report failed hfailed =>
      simp [MessagesFollow, ih, PulseEnd.GoesOn, PulseEnd.GivesFeedback, hnow id, hfailed,
        formatForRetry_ne_empty hfailed]
    | clean result start report passed hpassed =>
      cases hstop : loop.stopOnCleanValidate with
      | true =>
        have hnow : ¬ loop.StaleNow inputs (remaining + 1) pulse := by
          intro hnow
          have hgoes := hnow.2.1
          rw [hend, hstop] at hgoes
          cases hgoes
        simp [MessagesFollow, PulseEnd.GoesOn, hnow]
      | false =>
        have hnow : loop.StaleNow inputs (remaining + 1) pulse ↔
            0 < remaining ∧ (inputs (pulse + 1)).cancelledBefore = false := by
          simp [StaleNow, hend, hstop, PulseEnd.GoesOn, PulseEnd.IsClean]
        by_cases hempty : retryContext = ""
        · subst hempty
          simp [MessagesFollow, ih, PulseEnd.GoesOn, PulseEnd.GivesFeedback, hpassed]
        -- the old context stays, so all that is left is that no turn follows
        have hold := messagesFollow_old loop instruction inputs remaining (pulse + 1) (some result) hempty
        have hdone : remaining = 0 ∨ (inputs (pulse + 1)).cancelledBefore = true →
            ¬ loop.Stale inputs remaining (pulse + 1) := by
          rintro (rfl | hcancelled) ⟨j, hj, hreaches, -⟩
          · exact absurd hj (Nat.not_lt_zero _)
          · have hgoes := hreaches 0 (by omega)
            rw [Nat.add_zero, pulseEnd, if_pos hcancelled] at hgoes
            exact hgoes
        simp only [MessagesFollow, List.cons_append, List.nil_append, true_and, hpassed, if_true,
          Bool.false_eq_true, if_false, hold, hnow, PulseEnd.GoesOn, PulseEnd.GivesFeedback,
          false_and, or_false, ne_eq, hempty, not_false_eq_true, not_or, not_and,
          Bool.not_eq_false]
        constructor
        · intro hend
          refine ⟨hdone hend, fun hpos => hend.resolve_left (by omega)⟩
        · rintro ⟨-, hnext⟩
          rcases Nat.eq_zero_or_pos remaining with hzero | hpos
          · exact .inl hzero
          · exact .inr (hnext hpos)

/-! ### Errors of an earlier run -/

/-- What `last_error` says is said of a validation of the run. -/
def LastErrorHolds (r : LoopRun) : Prop :=
  ∀ error, r.result = .ok (.maxTurnsReached (some error)) →
    ∃ result, .validated result ∈ r.events ∧ describe result = some error

theorem LastErrorHolds.of_result (h : ∀ error, r.result ≠ .ok (.maxTurnsReached (some error))) :
    LastErrorHolds r :=
  fun error hresult => absurd hresult (h error)

/-- What `last_error` says is said of a validation of the pulses, or of the result before them. -/
theorem lastError_from (inputs : ℕ → PulseInput) (remaining pulse : ℕ) (retryContext : String)
    (last : Option ValidationResult) {error : String}
    (h : (loop.runPulses instruction inputs remaining pulse retryContext last).result =
      .ok (.maxTurnsReached (some error))) :
    (∃ result,
        .validated result ∈ (loop.runPulses instruction inputs remaining pulse retryContext last).events ∧
        describe result = some error) ∨
      lastValidationError last = some error := by
  induction remaining generalizing pulse retryContext last with
  | zero => exact .inr (EditLoopOutcome.maxTurnsReached.inj (Except.ok.inj h))
  | succ remaining ih =>
    -- what the rest says of the result that this pulse leaves
    have behind : ∀ {events retryContext' last'},
        loop.runPulse instruction pulse (inputs pulse) retryContext last =
          (events, .next retryContext' last') →
        (lastValidationError last' = some error →
          (∃ result, .validated result ∈ events ∧ describe result = some error) ∨
            lastValidationError last = some error) →
        (∃ result,
          .validated result ∈
            (loop.runPulses instruction inputs (remaining + 1) pulse retryContext last).events ∧
          describe result = some error) ∨ lastValidationError last = some error := by
      intro events retryContext' last' hrun hlast
      rw [runPulses, hrun] at h ⊢
      rcases ih _ _ _ h with ⟨result, hmem, hdescribe⟩ | hold
      · exact .inl ⟨result, List.mem_append_right _ hmem, hdescribe⟩
      · rcases hlast hold with ⟨result, hmem, hdescribe⟩ | hold
        · exact .inl ⟨result, List.mem_append_left _ hmem, hdescribe⟩
        · exact .inr hold
    have hruns := runPulse_runs loop instruction pulse (inputs pulse) retryContext last
    generalize hrun : loop.runPulse instruction pulse (inputs pulse) retryContext last = step at hruns
    generalize pulseEnd (inputs pulse) = ending at hruns
    cases hruns with
    | unstarted _ | cancelled start result | broken error' start report =>
      rw [runPulses, hrun] at h
      cases h
    | failed error' start report | noPatch start report => exact behind hrun .inr
    | unclean result start report failed _ =>
      exact behind hrun fun hlast => .inl ⟨result, by simp, hlast⟩
    | clean result start report passed _ =>
      cases hstop : loop.stopOnCleanValidate with
      | true =>
        rw [hstop] at hrun
        rw [runPulses, hrun] at h
        cases h
      | false =>
        rw [hstop] at hrun
        exact behind hrun fun hlast => .inl ⟨result, by simp, hlast⟩

theorem lastErrorHolds_of_validated {last : Option ValidationResult} {result : ValidationResult}
    (hmem : .validated result ∈ events) (hlast : last = some result) :
    LastErrorHolds { loop.runPulses instruction inputs remaining pulse retryContext last with
      events := events ++ (loop.runPulses instruction inputs remaining pulse retryContext last).events } := by
  intro error h
  rcases lastError_from inputs remaining pulse retryContext last h with ⟨other, hother, hdescribe⟩ | hold
  · exact ⟨other, List.mem_append_right _ hother, hdescribe⟩
  · rw [hlast] at hold
    exact ⟨result, List.mem_append_left _ hmem, hold⟩

theorem lastErrorHolds_behind (h : ∀ result, .validated result ∉ events) :
    LastErrorHolds { r with events := events ++ r.events } ↔ LastErrorHolds r := by
  have hmem : ∀ result, .validated result ∈ events ++ r.events ↔ .validated result ∈ r.events := by
    intro result
    rw [List.mem_append, or_iff_right (h result)]
  simp only [LastErrorHolds, hmem]

variable (loop instruction) in
theorem lastErrorHolds_iff (inputs : ℕ → PulseInput) (remaining pulse : ℕ) (retryContext : String)
    (last : Option ValidationResult) :
    LastErrorHolds (loop.runPulses instruction inputs remaining pulse retryContext last) ↔
      ¬ (AllPulses PulseEnd.Unvalidated inputs pulse remaining ∧ lastValidationError last ≠ none) := by
  induction remaining generalizing pulse retryContext last with
  | zero =>
    have hall : AllPulses PulseEnd.Unvalidated inputs pulse 0 := fun i hi =>
      absurd hi (Nat.not_lt_zero i)
    simp only [hall, true_and, not_not]
    cases hlast : lastValidationError last with
    | none => simp [runPulses, LastErrorHolds, hlast]
    | some error => simp [runPulses, LastErrorHolds, hlast]
  | succ remaining ih =>
    have hruns := runPulse_runs loop instruction pulse (inputs pulse) retryContext last
    rw [allPulses_succ, runPulses]
    generalize pulseEnd (inputs pulse) = ending,
      loop.runPulse instruction pulse (inputs pulse) retryContext last = step at hruns ⊢
    cases hruns with
    | unstarted _ | cancelled start result | broken error start report =>
      exact iff_of_true (.of_result nofun) fun h => h.1.1
    | failed error start report | noPatch start report =>
      rw [lastErrorHolds_behind (by simp), ih]
      simp [PulseEnd.Unvalidated]
    | unclean result start report failed _ =>
      exact iff_of_true (lastErrorHolds_of_validated (by simp) rfl) fun h => h.1.1
    | clean result start report passed _ =>
      refine iff_of_true ?_ fun h => h.1.1
      cases hstop : loop.stopOnCleanValidate with
      | true => exact .of_result nofun
      | false => exact lastErrorHolds_of_validated (by simp) rfl

/-! ### The contract -/

theorem lastValidationError_ne_none_iff {last : Option ValidationResult} :
    lastValidationError last ≠ none ↔ ∃ result, last = some result ∧ result.passed = false := by
  cases last with
  | none => simp [lastValidationError]
  | some result =>
    obtain ⟨passed, outputs⟩ := result
    cases passed with
    | true => simp [lastValidationError, describe]
    | false =>
      rw [lastValidationError, Option.bind_some, describe, if_neg (by simp)]
      split <;> simp

variable (loop) in
/-- What the inputs and the loop must be for the contract to be kept. -/
structure KeepsContract (inputs : ℕ → PulseInput) : Prop where
  /-- No pulse with feedback comes in front of one whose validation passes and a further turn. -/
  fresh : ¬ loop.Stale inputs loop.maxTurns.toNat 0
  /-- When no pulse gets as far as its validation, no failed result was left in the loop. -/
  own : ¬ (AllPulses PulseEnd.Unvalidated inputs 0 loop.maxTurns.toNat ∧
    ∃ result, loop.lastValidationResult = some result ∧ result.passed = false)

theorem dirtyWarning_lines (dirty : Except String Bool) :
    ∀ event ∈ dirtyWarning dirty, ∃ text, event = .line text := by
  intro event hevent
  match dirty, hevent with
  | .ok true, hevent => exact ⟨_, List.mem_singleton.mp hevent⟩
  | .error _, hevent => exact ⟨_, List.mem_singleton.mp hevent⟩

theorem turnMessages_lines {lines : List LoopEvent} (h : ∀ event ∈ lines, ∃ text, event = .line text) :
    turnMessages lines = [] := by
  refine List.filterMap_eq_nil_iff.mpr fun event hevent => ?_
  obtain ⟨text, rfl⟩ := h event hevent
  rfl

theorem messagesFollow_lines {lines : List LoopEvent} (h : ∀ event ∈ lines, ∃ text, event = .line text)
    (feedback : String) (events : List LoopEvent) :
    MessagesFollow instruction feedback (lines ++ events) ↔
      MessagesFollow instruction feedback events := by
  induction lines with
  | nil => rfl
  | cons event lines ih =>
    obtain ⟨text, rfl⟩ := h event List.mem_cons_self
    exact ih fun event hevent => h event (List.mem_cons_of_mem _ hevent)

/-- **The contract of a run** is kept exactly when no feedback grows old and no error of an earlier run is
left to report. -/
theorem contract_iff (loop : EditLoop) (instruction : String) (dirty : Except String Bool)
    (inputs : ℕ → PulseInput) :
    Contract loop instruction (loop.run instruction dirty inputs).1 ↔ loop.KeepsContract inputs := by
  have hlines := dirtyWarning_lines dirty
  have hnot : ∀ event ∈ dirtyWarning dirty, event ≠ .cancelCheck true ∧ ∀ result, event ≠ .validated result := by
    intro event hevent
    obtain ⟨text, rfl⟩ := hlines event hevent
    exact ⟨nofun, nofun⟩
  have hcalm : .cancelCheck true ∉ dirtyWarning dirty := fun h => (hnot _ h).1 rfl
  have hunvalidated : ∀ result, .validated result ∉ dirtyWarning dirty :=
    fun result h => (hnot _ h).2 result rfl
  have hsound := runPulses_sound loop instruction inputs
    loop.maxTurns.toNat 0 "" loop.lastValidationResult
  have hmessages := messagesFollow_iff loop instruction inputs
    loop.maxTurns.toNat 0 "" loop.lastValidationResult
  have herror := lastErrorHolds_iff loop instruction inputs
    loop.maxTurns.toNat 0 "" loop.lastValidationResult
  rw [lastValidationError_ne_none_iff] at herror
  constructor
  · intro h
    refine ⟨fun hstale => ?_, herror.mp ((lastErrorHolds_behind hunvalidated).mp h.lastError)⟩
    exact hmessages.mp ((messagesFollow_lines hlines _ _).mp h.messages) (.inl hstale)
  · intro h
    refine ⟨?_, ?_, ?_, hsound.stopped.behind hcalm, ?_, ?_⟩
    · show (turnMessages (dirtyWarning dirty ++ _)).length ≤ _
      rw [turnMessages_append, turnMessages_lines hlines]
      exact hsound.bounded
    · intro patchApplied validatePassed hresult
      obtain ⟨front, message, between, result, behind, hevents, hends⟩ :=
        hsound.success patchApplied validatePassed hresult
      refine ⟨dirtyWarning dirty ++ front, message, between, result, behind, ?_, hends⟩
      show dirtyWarning dirty ++ _ = _
      rw [hevents, List.append_assoc]
    · exact fun hseen => hsound.cancelled ((List.mem_append.mp hseen).resolve_left hcalm)
    · refine (messagesFollow_lines hlines _ _).mpr (hmessages.mpr ?_)
      rintro (hstale | ⟨hne, -⟩)
      · exact h.fresh hstale
      · exact hne rfl
    · exact (lastErrorHolds_behind hunvalidated).mpr (herror.mpr h.own)

/-- A loop whose last run ended with a failed validation reports it again behind a turn that failed. -/
theorem earlier_error_reported :
    let failed : ValidationResult := ⟨false, [⟨"cargo test", 101, "", "", false, false⟩]⟩
    let loop : EditLoop := ⟨1, true, some failed⟩
    ¬ Contract loop "fix the tests"
      (loop.run "fix the tests" (.ok false)
        fun _ => ⟨false, .error "connection refused", false, .ok failed⟩).1 := by
  intro failed loop h
  obtain ⟨result, hmem, -⟩ := h.lastError "cargo test exited with 101" (by rfl)
  simp [run, runPulses, runPulse, dirtyWarning, loop] at hmem

end EditLoop

end Vexcoder.Runtime

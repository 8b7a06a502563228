import Vexcoder.Handoff.Reports
import Vexcoder.Lib.Runs
import Vexcoder.Server.LocalApi
import Vexcoder.Stream.PulseFrame

/-!
# The protocol of the pulses of a task

A client of the local API sees pulses: each begins with a `PulseStart`, ends with one `PulseEnd` and
nothing follows the end.  The `Ledger` follows a record of calls and actions, without a look at the state
of the task, and refuses what the protocol does not allow.

The code keeps the protocol as long as what reaches it is in time: `Clear` says so of one call, by the
state in front of it.  Nothing in `on_model_update` looks at `turn_in_progress`, so an update that comes
behind the end is reported behind the end, and a completion behind an error ends the pulse a second time.
-/

namespace Vexcoder.Server

open Lib Lib.Emitter Vexcoder.Runtime Handoff
open RuntimeEnvelopeNormalizer

/-! ### The ledger -/

structure Ledger where
  phase : Phase := .before
  /-- The command sessions reported as started since the pulse began, and not as finished. -/
  sessions : List ℕ := []
  /-- An interrupt has been accepted since the pulse began. -/
  interrupted : Bool := false
  /-- The call under way is an error update. -/
  failing : Bool := false

namespace Ledger

def call (ledger : Ledger) : Event → Ledger
  | .modelUpdate (.error _) => { ledger with failing := true }
  | .modelUpdate (.commandSessionStarted sessionId _) =>
    { ledger with sessions := ledger.sessions.insert sessionId, failing := false }
  | .modelUpdate (.commandSessionFinished sessionId) =>
    { ledger with sessions := ledger.sessions.erase sessionId, failing := false }
  | _ => { ledger with failing := false }

/-- A `PulseEnd` comes when no session is active or an error causes it, and says `cancelled` after an
interrupt. -/
def send (ledger : Ledger) : RuntimeSignal → Option Ledger
  | .pulseStart _ =>
    if ledger.phase = .inside then none
    else some { ledger with phase := .inside, sessions := [], interrupted := false }
  | .pulseEnd status _ _ =>
    match ledger.phase with
    | .before => some ledger
    | .inside =>
      if (ledger.sessions = [] ∨ ledger.failing = true) ∧
          (ledger.interrupted = true → status = "cancelled") then
        some { ledger with phase := .after }
      else none
    | .after => none
  | _ => if ledger.phase = .after then none else some ledger

def act (ledger : Ledger) : Action → Option Ledger
  | .called event => some (ledger.call event)
  | .sent envelope => ledger.send envelope.signal
  | .cancelledPulse => some { ledger with interrupted := true }
  | .answered .. | .startedPulse _ => some ledger

end Ledger

def received (record : List Action) : List ℕ :=
  record.filterMap fun
    | .called (.modelUpdate (.toolApprovalRequest _ responseTx)) => some responseTx
    | _ => none

def answers (record : List Action) : List ℕ :=
  record.filterMap fun
    | .answered responseTx _ => some responseTx
    | _ => none

def envelopes (record : List Action) : List RuntimeEnvelope :=
  record.filterMap fun
    | .sent envelope => some envelope
    | _ => none

def waiting (s : LocalApiTaskShared) : List ℕ :=
  s.pendingApproval.toList.map PendingApproval.responseTx

/-- The protocol of a task: its pulses, the numbers of its envelopes, and its requests for approval, of
which the last may be pending and the others have been answered in their order. -/
structure Protocol (record : List Action) (s : LocalApiTaskShared) : Prop where
  pulses : (watch Ledger.act {} record).isSome = true
  numbers : ∀ i (h : i < (envelopes record).length), (envelopes record)[i].seq = min (i + 1) u64Max
  approvals : received record = answers record ++ waiting s

/-! ### Calls in time -/

def Begun (record : List Action) : Prop := ∃ input, .called (.userInput input) ∈ record

def Over (record : List Action) (s : LocalApiTaskShared) : Prop :=
  Begun record ∧ s.turnInProgress = false

def reports (s : LocalApiTaskShared) : ModelUpdate → Bool
  | .transcriptLine _ | .streamDelta _ | .streamBlockStart .. | .streamBlockDelta ..
  | .streamBlockComplete _ | .toolApprovalRequest .. | .error _ => true
  | .pulseComplete => s.activeCommandSessions.isEmpty
  | .commandSessionFinished sessionId =>
    s.turnCompletionPending && (s.activeCommandSessions.erase sessionId).isEmpty
  | .toolCallArgumentsUpdated .. | .serverMetadata _ | .commandSessionStarted ..
  | .commandSessionAttached .. | .editLoopComplete | .contextCompacted .. => false

/-- The update takes nothing back: an error does not hide an interrupt, and a request for approval does
not replace one that is pending. -/
def TakesNothing (s : LocalApiTaskShared) : ModelUpdate → Prop
  | .error _ => s.turnInProgress = true → s.interrupted = false
  | .toolApprovalRequest .. => s.pendingApproval = none
  | _ => True

def Clear (record : List Action) (s : LocalApiTaskShared) : Event → Prop
  | .userInput _ => s.turnInProgress = false
  | .interrupt => True
  | .modelUpdate update =>
    (reports s update = true → ¬ Over record s) ∧ TakesNothing s update
  | .request request =>
    ∀ pending ∈ s.pendingApproval, (resolves pending request).isSome = true → ¬ Over record s

/-! ### The ledger and the state -/

/-- What the ledger knows of the pulse in progress is what the state says. -/
structure Agrees (ledger : Ledger) (s : LocalApiTaskShared) : Prop where
  inside : ledger.phase = .inside ↔ s.turnInProgress = true
  sessions : ledger.phase = .inside → ledger.sessions = s.activeCommandSessions
  interrupted : ledger.phase = .inside → ledger.interrupted = s.interrupted

/-- What a stretch of the record takes with it. -/
structure Extends (ledger : Ledger) (s : LocalApiTaskShared) (out : List Action) (ledger' : Ledger)
    (s' : LocalApiTaskShared) : Prop where
  accepted : watch Ledger.act ledger out = some ledger'
  agrees : Agrees ledger' s'
  begun : ledger'.phase = .before ↔ ledger.phase = .before ∧ ¬ Begun out
  numbers : watch checkSeq s.normalizer.nextSeq (envelopes out) = some s'.normalizer.nextSeq
  approvals : waiting s ++ received out = answers out ++ waiting s'

theorem begun_append (record out : List Action) : Begun (record ++ out) ↔ Begun record ∨ Begun out := by
  constructor
  · rintro ⟨input, mem⟩
    rcases List.mem_append.mp mem with mem | mem
    · exact .inl ⟨input, mem⟩
    · exact .inr ⟨input, mem⟩
  · rintro (⟨input, mem⟩ | ⟨input, mem⟩)
    · exact ⟨input, List.mem_append_left _ mem⟩
    · exact ⟨input, List.mem_append_right _ mem⟩

variable {s s₁ s' : LocalApiTaskShared} {out record : List Action} {ledger : Ledger}

theorem Extends.trans {l l₁ l₂ : Ledger} {s₂ : LocalApiTaskShared} {out' : List Action}
    (first : Extends l s out l₁ s₁) (second : Extends l₁ s₁ out' l₂ s₂) :
    Extends l s (out ++ out') l₂ s₂ where
  accepted := by
    rw [watch_append, first.accepted]
    exact second.accepted
  agrees := second.agrees
  begun := by
    rw [second.begun, first.begun, begun_append, not_or, and_assoc]
  numbers := by
    rw [envelopes, List.filterMap_append, watch_append]
    have h := first.numbers
    rw [envelopes] at h
    rw [h]
    exact second.numbers
  approvals := by
    have h₁ := first.approvals
    have h₂ := second.approvals
    rw [received, answers] at h₁ h₂ ⊢
    rw [List.filterMap_append, List.filterMap_append, ← List.append_assoc, h₁, List.append_assoc, h₂,
      List.append_assoc]

theorem call_phase (ledger : Ledger) (event : Event) : (ledger.call event).phase = ledger.phase := by
  cases event with
  | modelUpdate update => cases update <;> rfl
  | _ => rfl

theorem extends_called {event : Event} (normalizer : s'.normalizer = s.normalizer)
    (agrees : Agrees (ledger.call event) s') (noInput : ∀ input, event ≠ .userInput input)
    (approvals : waiting s ++ received [.called event] = waiting s') :
    Extends ledger s [.called event] (ledger.call event) s' where
  accepted := rfl
  agrees := agrees
  begun := by
    have notBegun : ¬ Begun [.called event] := by
      rintro ⟨input, mem⟩
      exact noInput input (Action.called.inj (List.mem_singleton.mp mem)).symm
    rw [call_phase]
    exact (and_iff_left notBegun).symm
  numbers := by
    rw [normalizer]
    rfl
  approvals := approvals

theorem extends_call_then {ledger₁ : Ledger} {event : Event}
    (called : Extends ledger s [.called event] ledger₁ s₁)
    (rest : Agrees ledger₁ s₁ → ∃ ledger', Extends ledger₁ s₁ out ledger' s') :
    ∃ ledger', Extends ledger s (.called event :: out) ledger' s' := by
  obtain ⟨ledger', h⟩ := rest called.agrees
  exact ⟨ledger', called.trans h⟩

/-! ### What is sent -/

theorem envelopes_sent (out : List RuntimeEnvelope) : envelopes (out.map .sent) = out := by
  induction out with
  | nil => rfl
  | cons e out ih => exact congrArg (e :: ·) ih

theorem received_sent (out : List RuntimeEnvelope) : received (out.map .sent) = [] := by
  induction out with
  | nil => rfl
  | cons e out ih => exact ih

theorem answers_sent (out : List RuntimeEnvelope) : answers (out.map .sent) = [] := by
  induction out with
  | nil => rfl
  | cons e out ih => exact ih

theorem not_begun_sent (out : List RuntimeEnvelope) : ¬ Begun (out.map .sent) := by
  rintro ⟨input, mem⟩
  obtain ⟨e, -, h⟩ := List.mem_map.mp mem
  cases h

theorem watch_neutral {out : List RuntimeEnvelope} (open_ : ledger.phase ≠ .after)
    (neutral : ∀ e ∈ out, Neutral e.signal) :
    watch Ledger.act ledger (out.map .sent) = some ledger := by
  refine watch_of_ignored fun action mem => ?_
  obtain ⟨e, he, rfl⟩ := List.mem_map.mp mem
  obtain ⟨noStart, noEnd⟩ := neutral e he
  show ledger.send e.signal = some ledger
  cases hs : e.signal with
  | pulseStart input =>
    rw [hs] at noStart
    cases noStart
  | pulseEnd status usage files =>
    rw [hs] at noEnd
    cases noEnd
  | _ => exact if_neg open_

theorem extends_talk {x : Emit Unit} (talks : Talks x) (agrees : Agrees ledger s)
    (open_ : ledger.phase ≠ .after) (hrun : emitEnvelopes x s = some ((), out, s')) :
    Extends ledger s out ledger s' := by
  obtain ⟨sent, normalizer, hx, rfl, rfl⟩ := zoom_eq_some hrun
  obtain ⟨neutral, numbers⟩ := talks _ _ _ _ hx
  constructor
  · exact watch_neutral open_ neutral
  · exact ⟨agrees.inside, agrees.sessions, agrees.interrupted⟩
  · exact (and_iff_left (not_begun_sent sent)).symm
  · rw [envelopes_sent]
    exact numbers
  · rw [received_sent, answers_sent]
    exact List.append_nil _

/-- The end of a pulse; `s₁` is `s` with the pulse taken out of progress. -/
theorem extends_end {x : Emit Unit} {status : String} (ends : Ends status x) (open_ : ledger.phase ≠ .after)
    (gate : ledger.phase = .inside → (ledger.sessions = [] ∨ ledger.failing = true) ∧
      (ledger.interrupted = true → status = "cancelled"))
    (normalizer : s₁.normalizer = s.normalizer) (pending : waiting s₁ = waiting s)
    (idle : s₁.turnInProgress = false) (hrun : emitEnvelopes x s₁ = some ((), out, s')) :
    ∃ ledger', Extends ledger s out ledger' s' := by
  obtain ⟨sent, normalizer', hx, rfl, rfl⟩ := zoom_eq_some hrun
  obtain ⟨before, last, usage, files, rfl, neutral, hend, numbers⟩ := ends _ _ _ hx
  have idle' : ¬ s₁.turnInProgress = true := Bool.eq_false_iff.mp idle
  have quiet : ∀ ledger', ledger'.phase ≠ .inside →
      Agrees ledger' { s₁ with normalizer := normalizer' } := fun ledger' h =>
    ⟨⟨fun inside => absurd inside h, fun progress => absurd progress idle'⟩,
      fun inside => absurd inside h, fun inside => absurd inside h⟩
  have watched : ∀ ledger', ledger.send last.signal = some ledger' →
      watch Ledger.act ledger ((before ++ [last]).map .sent) = some ledger' := by
    intro ledger' h
    rw [List.map_append, watch_append, watch_neutral open_ neutral]
    show watch Ledger.act ledger [.sent last] = some ledger'
    rw [watch, show ledger.act (.sent last) = some ledger' from h]
    rfl
  have numbers' : watch checkSeq s.normalizer.nextSeq
      (envelopes ((before ++ [last]).map .sent)) = some normalizer'.nextSeq := by
    rw [envelopes_sent, ← normalizer]
    exact numbers
  have approvals : waiting s ++ received ((before ++ [last]).map .sent) =
      answers ((before ++ [last]).map .sent) ++ waiting { s₁ with normalizer := normalizer' } := by
    rw [received_sent, answers_sent, List.append_nil, ← pending]
    rfl
  cases phase : ledger.phase with
  | before =>
    have accepted : ledger.send last.signal = some ledger := by
      rw [hend, Ledger.send, phase]
    have notInside : ledger.phase ≠ .inside := by
      rw [phase]
      intro h
      cases h
    exact ⟨ledger, watched ledger accepted, quiet ledger notInside,
      (and_iff_left (not_begun_sent _)).symm, numbers', approvals⟩
  | inside =>
    have accepted : ledger.send last.signal = some { ledger with phase := .after } := by
      rw [hend, Ledger.send, phase]
      exact if_pos (gate phase)
    refine ⟨{ ledger with phase := .after }, watched _ accepted, quiet _ (fun h => by cases h), ?_,
      numbers', approvals⟩
    constructor
    · intro h
      cases h
    · rintro ⟨h, -⟩
      rw [phase] at h
      cases h
  | after => exact absurd phase open_

/-! ### One call -/

theorem extends_nil (agrees : Agrees ledger s) : Extends ledger s [] ledger s where
  accepted := rfl
  agrees := agrees
  begun := (and_iff_left fun ⟨_, mem⟩ => List.not_mem_nil mem).symm
  numbers := rfl
  approvals := List.append_nil _

theorem agrees_failing (agrees : Agrees ledger s) (failing : Bool) : Agrees { ledger with failing } s :=
  ⟨agrees.inside, agrees.sessions, agrees.interrupted⟩

section Calls

variable {host : Host} {ledger : Ledger} {s s' : LocalApiTaskShared} {out : List Action}

def endOfPulse (host : Host) (interrupted : Bool) : Emit Unit :=
  if interrupted then finishTurnWithStatus host "cancelled" {}
  else normalizeUiUpdate host .pulseComplete (some {})

theorem completeTurnIfIdle_busy (busy : s.turnCompletionPending = true → s.activeCommandSessions ≠ []) :
    completeTurnIfIdle host s = some ((), [], s) := by
  rw [completeTurnIfIdle, bind_of_some (read_run s)]
  cases pending : s.turnCompletionPending with
  | false => rfl
  | true =>
    cases sessions : s.activeCommandSessions with
    | nil => exact absurd sessions (busy pending)
    | cons session sessions => rfl

def finished (s : LocalApiTaskShared) : LocalApiTaskShared :=
  { s with turnCompletionPending := false, turnInProgress := false, quit := true }

theorem completeTurnIfIdle_idle (pending : s.turnCompletionPending = true)
    (sessions : s.activeCommandSessions = []) :
    completeTurnIfIdle host s = emitEnvelopes (endOfPulse host s.interrupted) (finished s) := by
  have ready : ¬ (!s.turnCompletionPending || !s.activeCommandSessions.isEmpty) = true := by
    rw [pending, sessions]
    exact Bool.false_ne_true
  rw [completeTurnIfIdle, bind_of_some (read_run s), prepend_nil, if_neg ready]
  exact (bind_of_some (modify_run _ s)).trans (prepend_nil _)

theorem extends_complete (agrees : Agrees ledger s)
    (open_ : s.turnCompletionPending = true → s.activeCommandSessions = [] → ledger.phase ≠ .after)
    (hrun : completeTurnIfIdle host s = some ((), out, s')) :
    ∃ ledger', Extends ledger s out ledger' s' := by
  by_cases busy : s.turnCompletionPending = true → s.activeCommandSessions ≠ []
  · rw [completeTurnIfIdle_busy busy] at hrun
    cases hrun
    exact ⟨ledger, extends_nil agrees⟩
  · obtain ⟨pending, sessions⟩ := not_forall.mp busy
    have sessions := not_not.mp sessions
    rw [completeTurnIfIdle_idle pending sessions] at hrun
    have idle : ledger.phase = .inside → ledger.sessions = [] := fun inside =>
      (agrees.sessions inside).trans sessions
    have same : (finished s).normalizer = s.normalizer := rfl
    cases interrupted : s.interrupted with
    | false =>
      rw [interrupted] at hrun
      refine extends_end (ends_finishTurnWithStatus host "completed" {}) (open_ pending sessions)
        (fun inside => ⟨.inl (idle inside), fun h => ?_⟩) same rfl rfl hrun
      rw [agrees.interrupted inside, interrupted] at h
      cases h
    | true =>
      rw [interrupted] at hrun
      exact extends_end (ends_finishTurnWithStatus host "cancelled" {}) (open_ pending sessions)
        (fun inside => ⟨.inl (idle inside), fun _ => rfl⟩) same rfl rfl hrun

theorem extends_userInput {input : String} (idle : s.turnInProgress = false)
    (agrees : Agrees ledger s) (hrun : step host (.userInput input) s = some ((), out, s')) :
    ∃ ledger', Extends ledger s out ledger' s' := by
  have outside : ledger.phase ≠ .inside := by
    intro inside
    rw [agrees.inside.mp inside] at idle
    cases idle
  obtain ⟨e, s₁, hstep, signal, seq, next, pending, progress, sessions, interrupted⟩ :
      ∃ e s₁, step host (.userInput input) s =
          some ((), [.called (.userInput input), .sent e, .startedPulse input], s₁) ∧
        e.signal = .pulseStart (some input) ∧ e.seq = s.normalizer.nextSeq ∧
        s₁.normalizer.nextSeq = saturatingSucc s.normalizer.nextSeq ∧ waiting s₁ = waiting s ∧
        s₁.turnInProgress = true ∧ s₁.activeCommandSessions = [] ∧ s₁.interrupted = false :=
    ⟨_, _, rfl, rfl, rfl, rfl, rfl, rfl, rfl, rfl⟩
  rw [hstep] at hrun
  cases hrun
  refine ⟨{ ledger with phase := .inside, sessions := [], interrupted := false, failing := false },
    ?_, ?_, ?_, ?_, ?_⟩
  · have accepted : (ledger.call (.userInput input)).send e.signal = some { ledger with
        phase := .inside, sessions := [], interrupted := false, failing := false } := by
      rw [signal]
      exact if_neg outside
    show watch Ledger.act (ledger.call (.userInput input)) [.sent e, .startedPulse input] = _
    rw [watch, show (ledger.call (.userInput input)).act (.sent e) = _ from accepted]
    rfl
  · exact ⟨⟨fun _ => progress, fun _ => rfl⟩, fun _ => sessions.symm, fun _ => interrupted.symm⟩
  · constructor
    · intro h
      cases h
    · rintro ⟨-, notBegun⟩
      exact absurd ⟨input, List.mem_cons_self⟩ notBegun
  · show watch checkSeq s.normalizer.nextSeq [e] = some s'.normalizer.nextSeq
    rw [watch, checkSeq, if_pos seq, next]
    rfl
  · show waiting s ++ [] = [] ++ waiting s'
    rw [pending, List.append_nil, List.nil_append]

theorem extends_interrupt (agrees : Agrees ledger s) (hrun : handle host .interrupt s = some ((), out, s')) :
    ∃ ledger', Extends ledger s out ledger' s' := by
  have hrun : onInterrupt s = some ((), out, s') := hrun
  rw [onInterrupt, bind_of_some (read_run s)] at hrun
  cases progress : s.turnInProgress with
  | false =>
    rw [progress] at hrun
    cases hrun
    exact ⟨ledger, extends_nil agrees⟩
  | true =>
    rw [progress] at hrun
    cases hrun
    refine ⟨{ ledger with interrupted := true }, rfl, ?_, ?_, rfl, List.append_nil _⟩
    · exact ⟨agrees.inside, agrees.sessions, fun _ => rfl⟩
    · refine (and_iff_left ?_).symm
      rintro ⟨input, mem⟩
      cases List.mem_singleton.mp mem

theorem talks_normalizeRuntimeRequest (request : RuntimeRequest) :
    Talks (normalizeRuntimeRequest host request) := by
  cases request with
  | submitInput requestId taskId input | interrupt requestId taskId => exact talks_pure ()
  | approveCapability requestId taskId capability scope | denyCapability requestId taskId capability =>
    exact talks_nextEnvelopeWithSource host ⟨rfl, rfl⟩ _ none none

variable {request : RuntimeRequest}

/-- A request changes nothing, or it answers the pending approval. -/
theorem resolvePending_cases {result : Except String Unit}
    (hrun : resolvePending host request s = some (result, out, s')) :
    (out = [] ∧ s' = s) ∨
    ∃ pending approved sent, s.pendingApproval = some pending ∧
      resolves pending request = some approved ∧
      out = .answered pending.responseTx approved :: sent ∧
      emitEnvelopes (normalizeRuntimeRequest host request) { s with pendingApproval := none } =
        some ((), sent, s') := by
  rw [resolvePending, bind_of_some (read_run s), prepend_nil] at hrun
  cases waits : s.pendingApproval with
  | none =>
    rw [waits] at hrun
    cases hrun
    exact .inl ⟨rfl, rfl⟩
  | some pending =>
    rw [waits] at hrun
    dsimp only at hrun
    cases resolved : resolves pending request with
    | none =>
      rw [resolved] at hrun
      cases hrun
      exact .inl ⟨rfl, rfl⟩
    | some approved =>
      rw [resolved] at hrun
      obtain ⟨_, _, _, _, took, hrun, rfl⟩ := bind_eq_some hrun
      cases took
      obtain ⟨_, _, _, _, told, hrun, rfl⟩ := bind_eq_some hrun
      cases told
      obtain ⟨_, sent, _, _, hsent, hrest, rfl⟩ := bind_eq_some hrun
      cases hrest
      rw [List.append_nil]
      exact .inr ⟨pending, approved, sent, rfl, resolved, rfl, hsent⟩

theorem approveHandler_cases {result : Except String Unit}
    (hrun : approveHandler host request s = some (result, out, s')) :
    (out = [] ∧ s' = s) ∨ resolvePending host request s = some (result, out, s') := by
  cases request with
  | submitInput requestId taskId input | interrupt requestId taskId =>
    cases hrun
    exact .inl ⟨rfl, rfl⟩
  | approveCapability requestId taskId capability scope | denyCapability requestId taskId capability =>
    exact .inr hrun

theorem extends_request (agrees : Agrees ledger s)
    (open_ : ∀ pending ∈ s.pendingApproval, (resolves pending request).isSome = true →
      ledger.phase ≠ .after) (hrun : handle host (.request request) s = some ((), out, s')) :
    ∃ ledger', Extends ledger s out ledger' s' := by
  obtain ⟨result, out₁, s₁, out₂, handled, hrest, rfl⟩ := bind_eq_some hrun
  cases hrest
  rw [List.append_nil]
  rcases approveHandler_cases handled with ⟨rfl, rfl⟩ | handled
  · exact ⟨ledger, extends_nil agrees⟩
  rcases resolvePending_cases handled with ⟨rfl, rfl⟩ |
    ⟨pending, approved, sent, waits, resolved, rfl, hsent⟩
  · exact ⟨ledger, extends_nil agrees⟩
  have answered : Extends ledger s [.answered pending.responseTx approved] ledger
      { s with pendingApproval := none } := by
    refine ⟨rfl, ⟨agrees.inside, agrees.sessions, agrees.interrupted⟩, ?_, rfl, ?_⟩
    · refine (and_iff_left ?_).symm
      rintro ⟨input, mem⟩
      cases List.mem_singleton.mp mem
    · show waiting s ++ [] = [pending.responseTx] ++ []
      rw [waiting, waits]
      rfl
  have inTime : ledger.phase ≠ .after := open_ pending waits (by rw [resolved]; rfl)
  exact ⟨ledger, answered.trans
    (extends_talk (talks_normalizeRuntimeRequest request) answered.agrees inTime hsent)⟩

theorem extends_modelUpdate {update : ModelUpdate} (agrees : Agrees ledger s)
    (open_ : reports s update = true → ledger.phase ≠ .after) (takes : TakesNothing s update)
    (hrun : onModelUpdate host update s = some ((), out, s')) :
    ∃ ledger', Extends ledger s (.called (.modelUpdate update) :: out) ledger' s' := by
  have called : ledger.call (.modelUpdate update) = { ledger with failing := false } →
      received [.called (.modelUpdate update)] = [] →
      Extends ledger s [.called (.modelUpdate update)] { ledger with failing := false } s := by
    intro hcall hreceived
    have agrees' : Agrees (ledger.call (.modelUpdate update)) s := hcall ▸ agrees_failing agrees false
    have h : Extends ledger s [.called (.modelUpdate update)] (ledger.call (.modelUpdate update)) s :=
      extends_called rfl agrees' (fun input h => by cases h) (by rw [hreceived, List.append_nil])
    rwa [hcall] at h
  have report : ∀ {ui : UiUpdate}, ledger.call (.modelUpdate update) = { ledger with failing := false } →
      received [.called (.modelUpdate update)] = [] → isReport ui = true →
      reports s update = true → emitEnvelopes (normalizeUiUpdate host ui none) s = some ((), out, s') →
      ∃ ledger', Extends ledger s (.called (.modelUpdate update) :: out) ledger' s' := by
    intro ui hcall hreceived hui hreports hrun
    have first := called hcall hreceived
    exact ⟨_, first.trans (extends_talk (talks_normalizeUiUpdate host hui none) first.agrees
      (open_ hreports) hrun)⟩
  have quiet : ledger.call (.modelUpdate update) = { ledger with failing := false } →
      received [.called (.modelUpdate update)] = [] → some ((), [], s) = some ((), out, s') →
      ∃ ledger', Extends ledger s (.called (.modelUpdate update) :: out) ledger' s' := by
    intro hcall hreceived hrun
    cases hrun
    exact ⟨_, called hcall hreceived⟩
  cases update with
  | transcriptLine line | streamDelta text | streamBlockStart index block
  | streamBlockDelta index delta | streamBlockComplete index => exact report rfl rfl rfl rfl hrun
  | serverMetadata metadata | commandSessionAttached sessionId pid
  | toolCallArgumentsUpdated toolCallId toolName arguments | editLoopComplete
  | contextCompacted messagesBefore messagesAfter summary => exact quiet rfl rfl hrun
  | toolApprovalRequest request responseTx =>
    have none_pending : s.pendingApproval = none := takes
    refine extends_call_then (extends_called ?_ ?_ ?_ ?_) fun agrees' => ⟨_, extends_talk
      (talks_nextEnvelopeWithSource host ?_ none none none) agrees' (open_ rfl)
      (modify_bind_eq_some hrun)⟩
    · rfl
    · exact ⟨agrees.inside, agrees.sessions, agrees.interrupted⟩
    · intro input h
      cases h
    · rw [waiting, none_pending]
      rfl
    · exact ⟨rfl, rfl⟩
  | commandSessionStarted sessionId command =>
    cases hrun
    refine ⟨_, extends_called rfl ?_ (fun input h => by cases h) (List.append_nil _)⟩
    exact ⟨agrees.inside, fun inside => congrArg (List.insert sessionId) (agrees.sessions inside),
      agrees.interrupted⟩
  | commandSessionFinished sessionId =>
    refine extends_call_then (extends_called ?_ ?_ ?_ ?_) fun agrees' =>
      extends_complete agrees' ?_ (modify_bind_eq_some hrun)
    · rfl
    · exact ⟨agrees.inside, fun inside => congrArg (List.erase · sessionId) (agrees.sessions inside),
        agrees.interrupted⟩
    · intro input h
      cases h
    · exact List.append_nil _
    · intro pending sessions
      have empties : (s.activeCommandSessions.erase sessionId) = [] := sessions
      exact open_ (by rw [reports, pending, empties]; rfl)
  | pulseComplete =>
    refine extends_call_then (extends_called ?_ ?_ ?_ ?_) fun agrees' =>
      extends_complete agrees' ?_ (modify_bind_eq_some hrun)
    · rfl
    · exact ⟨agrees.inside, agrees.sessions, agrees.interrupted⟩
    · intro input h
      cases h
    · exact List.append_nil _
    · intro _ sessions
      have empties : s.activeCommandSessions = [] := sessions
      exact open_ (by rw [reports, empties]; rfl)
  | error message =>
    refine extends_call_then (extends_called rfl (agrees_failing agrees true)
      (fun input h => by cases h) (List.append_nil _)) fun _ =>
      extends_end (ends_emitError host "runtime_error" message {}) (open_ rfl) ?_ ?_ ?_ ?_
        (modify_bind_eq_some hrun)
    · intro inside
      refine ⟨.inr rfl, fun interrupted => ?_⟩
      have kept : s.interrupted = false := takes (agrees.inside.mp inside)
      have interrupted : ledger.interrupted = true := interrupted
      rw [agrees.interrupted inside, kept] at interrupted
      cases interrupted
    all_goals rfl

/-- **One call in time keeps the protocol.** -/
theorem extends_step {record : List Action} {event : Event} (agrees : Agrees ledger s)
    (begun : ledger.phase = .before ↔ ¬ Begun record) (clear : Clear record s event)
    (hrun : step host event s = some ((), out, s')) :
    ∃ ledger', Extends ledger s out ledger' s' := by
  have open_ : ¬ Over record s → ledger.phase ≠ .after := by
    intro notOver after
    have idle : s.turnInProgress = false := by
      refine Bool.eq_false_iff.mpr fun progress => ?_
      rw [agrees.inside.mpr progress] at after
      cases after
    refine notOver ⟨not_not.mp fun notBegun => ?_, idle⟩
    rw [begun.mpr notBegun] at after
    cases after
  have called : ∀ {event : Event}, ledger.call event = { ledger with failing := false } →
      (∀ input, event ≠ .userInput input) → received [.called event] = [] →
      Extends ledger s [.called event] { ledger with failing := false } s := by
    intro event hcall noInput hreceived
    have h : Extends ledger s [.called event] (ledger.call event) s :=
      extends_called rfl (hcall ▸ agrees_failing agrees false) noInput (by rw [hreceived, List.append_nil])
    rwa [hcall] at h
  cases event with
  | userInput input => exact extends_userInput clear agrees hrun
  | interrupt =>
    obtain ⟨_, _, _, out₂, told, hrun, rfl⟩ := bind_eq_some hrun
    cases told
    exact extends_call_then (called rfl (fun input h => by cases h) rfl) fun agrees' =>
      extends_interrupt agrees' hrun
  | modelUpdate update =>
    obtain ⟨_, _, _, out₂, told, hrun, rfl⟩ := bind_eq_some hrun
    cases told
    exact extends_modelUpdate agrees (fun h => open_ (clear.1 h)) clear.2 hrun
  | request request =>
    obtain ⟨_, _, _, out₂, told, hrun, rfl⟩ := bind_eq_some hrun
    cases told
    exact extends_call_then (called rfl (fun input h => by cases h) rfl) fun agrees' =>
      extends_request agrees' (fun pending mem h => open_ (clear pending mem h)) hrun

end Calls

/-! ### Runs -/

/-- The record so far and the state, related by a ledger. -/
def Follows (record : List Action) (s : LocalApiTaskShared) : Prop :=
  ∃ ledger, watch Ledger.act {} record = some ledger ∧ Agrees ledger s ∧
    (ledger.phase = .before ↔ ¬ Begun record) ∧
    watch checkSeq 1 (envelopes record) = some s.normalizer.nextSeq ∧
    received record = answers record ++ waiting s

theorem follows_new (taskId : String) : Follows [] (.new taskId) := by
  refine ⟨{}, rfl, ⟨?_, fun _ => rfl, fun _ => rfl⟩, ?_, rfl, rfl⟩
  · constructor
    all_goals
      intro h
      cases h
  · exact ⟨fun _ ⟨_, mem⟩ => List.not_mem_nil mem, fun _ => rfl⟩

theorem follows_append {ledger' : Ledger} (accepted : watch Ledger.act {} record = some ledger)
    (begun : ledger.phase = .before ↔ ¬ Begun record)
    (numbers : watch checkSeq 1 (envelopes record) = some s.normalizer.nextSeq)
    (approvals : received record = answers record ++ waiting s)
    (extends_ : Extends ledger s out ledger' s') : Follows (record ++ out) s' := by
  refine ⟨ledger', ?_, extends_.agrees, ?_, ?_, ?_⟩
  · rw [watch_append, accepted]
    exact extends_.accepted
  · rw [extends_.begun, begun, begun_append, not_or]
  · rw [envelopes, List.filterMap_append, watch_append]
    rw [envelopes] at numbers
    rw [numbers]
    exact extends_.numbers
  · have h := extends_.approvals
    rw [received, answers] at h approvals ⊢
    rw [List.filterMap_append, List.filterMap_append, approvals, List.append_assoc, h, List.append_assoc]

theorem protocol_of_follows (follows : Follows record s) : Protocol record s := by
  obtain ⟨ledger, accepted, -, -, numbers, approvals⟩ := follows
  refine ⟨?_, ?_, approvals⟩
  · rw [accepted]
    rfl
  · intro i h
    have numbered := Stream.seq_of_watch (Nat.le_of_ble_eq_true rfl) numbers i h
    rwa [Nat.add_comm] at numbered

/-- **The protocol of the pulses**: a task whose calls are all in time keeps it. -/
theorem protocol_of_clear {host : Host} {taskId : String} {events : List Event}
    {record : List Action} {s : LocalApiTaskShared}
    (clear : Meets Clear (step host) [] (.new taskId) events)
    (hrun : run host events (.new taskId) = some ((), record, s)) : Protocol record s := by
  refine protocol_of_follows ?_
  refine run_records (I := Follows) (fun past s event out s' follows clear hstep => ?_)
    (follows_new taskId) clear hrun
  obtain ⟨ledger, accepted, agrees, begun, numbers, approvals⟩ := follows
  obtain ⟨ledger', extends_⟩ := extends_step agrees begun clear hstep
  exact follows_append accepted begun numbers approvals extends_

/-! ### Runs on fixed calls -/

def isUserInput : Action → Bool
  | .called (.userInput _) => true
  | _ => false

theorem begun_of_isUserInput {action : Action} (mem : action ∈ record)
    (h : isUserInput action = true) : Begun record := by
  cases action with
  | called event =>
    cases event with
    | userInput input => exact ⟨input, mem⟩
    | interrupt => cases h
    | modelUpdate update => cases h
    | request request => cases h
  | sent envelope | answered responseTx approved | startedPulse input | cancelledPulse => cases h

theorem begun_iff_any (record : List Action) : record.any isUserInput = true ↔ Begun record := by
  rw [List.any_eq_true]
  constructor
  · rintro ⟨action, mem, h⟩
    exact begun_of_isUserInput mem h
  · rintro ⟨input, mem⟩
    exact ⟨_, mem, rfl⟩

instance decidableBegun (record : List Action) : Decidable (Begun record) :=
  decidable_of_iff _ (begun_iff_any record)

instance (record : List Action) (s : LocalApiTaskShared) : Decidable (Over record s) :=
  inferInstanceAs (Decidable (_ ∧ _))

instance (s : LocalApiTaskShared) (update : ModelUpdate) : Decidable (TakesNothing s update) :=
  match update with
  | .error _ => inferInstanceAs (Decidable (_ → _))
  | .toolApprovalRequest .. => inferInstanceAs (Decidable (_ = _))
  | .transcriptLine _ | .streamDelta _ | .streamBlockStart .. | .streamBlockDelta ..
  | .streamBlockComplete _ | .pulseComplete | .commandSessionFinished _
  | .toolCallArgumentsUpdated .. | .serverMetadata _ | .commandSessionStarted ..
  | .commandSessionAttached .. | .editLoopComplete | .contextCompacted .. => .isTrue trivial

instance decidableClear (record : List Action) (s : LocalApiTaskShared) (event : Event) :
    Decidable (Clear record s event) :=
  match event with
  | .userInput _ => inferInstanceAs (Decidable (_ = _))
  | .interrupt => .isTrue trivial
  | .modelUpdate _ => inferInstanceAs (Decidable (_ ∧ _))
  | .request request => inferInstanceAs (Decidable (∀ pending ∈ s.pendingApproval,
      (resolves pending request).isSome = true → ¬ Over record s))

def sampleEvents : List Event :=
  [.userInput "fix it",
    .modelUpdate (.toolApprovalRequest { toolName := "run_command", inputPreview := "\x7b\x7d" } 7),
    .request (.approveCapability "r" "t" "run-command" "once"),
    .modelUpdate (.commandSessionStarted 41 "make"),
    .modelUpdate .pulseComplete,
    .interrupt,
    .modelUpdate (.commandSessionFinished 41)]

theorem protocol_of_clear_sample : ∃ record s,
    run sampleIngress.toHost sampleEvents (.new "t") = some ((), record, s) ∧ Protocol record s := by
  have hrun : (run sampleIngress.toHost sampleEvents (.new "t")).isSome = true := by decide +kernel
  obtain ⟨⟨⟨⟩, record, s⟩, hrun⟩ := Option.isSome_iff_exists.mp hrun
  exact ⟨record, s, hrun, protocol_of_clear (by decide +kernel) hrun⟩

/-- **Completion behind an error**: an error of the stream ends the pulse, and so does the completion of
the turn, which goes on. -/
theorem completion_ends_again : ∃ record s,
    run sampleIngress.toHost
      [.userInput "fix it", .modelUpdate (.error "stream"), .modelUpdate .pulseComplete]
      (.new "t") = some ((), record, s) ∧ ¬ Protocol record s := by
  have hrun : (run sampleIngress.toHost
      [.userInput "fix it", .modelUpdate (.error "stream"), .modelUpdate .pulseComplete]
      (.new "t")).any (fun result => (watch Ledger.act {} result.2.1).isNone) = true := by
    decide +kernel
  obtain ⟨⟨⟨⟩, record, s⟩, hrun, refused⟩ := (Option.any_eq_true _ _).mp hrun
  refine ⟨record, s, hrun, fun protocol => ?_⟩
  have accepted := protocol.pulses
  rw [Option.isNone_iff_eq_none.mp refused] at accepted
  cases accepted

end Vexcoder.Server

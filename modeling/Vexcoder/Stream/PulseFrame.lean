import Vexcoder.Handoff.Pulse
import Vexcoder.Stream.IngressAdapter

/-!
# The envelopes of one stream form one pulse

A run of the parser in adapter mode handles payloads and protocol errors in any order and is then
finished.  What it emits is a well-formed pulse exactly when no error is reported before the pulse is
open (`wellFormedPulse_iff`): such an error is emitted without the envelope that starts the pulse.
-/

namespace Vexcoder.Stream

open Base Lib Lib.Emitter Vexcoder.Runtime Handoff RuntimeEnvelopeNormalizer

/-- One start, first; one end, last; and numbers that count from one, as far as a `u64` does. -/
structure WellFormedPulse (envelopes : List RuntimeEnvelope) : Prop where
  starts : ∃ first rest, envelopes = first :: rest ∧ isPulseStart first.signal = true
  ends : ∃ rest last, envelopes = rest ++ [last] ∧ isPulseEnd last.signal = true
  oneStart : envelopes.countP (fun e => isPulseStart e.signal) = 1
  oneEnd : envelopes.countP (fun e => isPulseEnd e.signal) = 1
  consecutive : ∀ i (h : i < envelopes.length), envelopes[i].seq = min (i + 1) u64Max

/-! ### From the monitors to the frame -/

variable {out : List RuntimeEnvelope}

theorem seq_of_watch {n n' : ℕ} (hn : n ≤ u64Max) (h : watch checkSeq n out = some n') (i : ℕ)
    (hi : i < out.length) : out[i].seq = min (n + i) u64Max := by
  induction out generalizing n i with
  | nil => exact absurd hi (Nat.not_lt_zero i)
  | cons e out ih =>
    simp only [watch, checkSeq] at h
    by_cases he : e.seq = n
    · rw [if_pos he] at h
      cases i with
      | zero => rw [List.getElem_cons_zero, he, Nat.add_zero, Nat.min_eq_left hn]
      | succ i =>
        rw [List.getElem_cons_succ, ih (saturatingSucc_le n) h i (Nat.lt_of_succ_lt_succ hi),
          min_saturatingSucc_add]
    · rw [if_neg he] at h
      cases h

theorem watch_after {phase' : Phase} (h : watch phaseStep .after out = some phase') : out = [] := by
  cases out with
  | nil => rfl
  | cons e out => cases h

theorem watch_inside (h : watch phaseStep .inside out = some .after) :
    ∃ middle last, out = middle ++ [last] ∧ isPulseEnd last.signal = true ∧
      (∀ e ∈ out, isPulseStart e.signal = false) ∧ ∀ e ∈ middle, isPulseEnd e.signal = false := by
  induction out with
  | nil => cases h
  | cons e out ih =>
    simp only [watch, phaseStep] at h
    cases hstart : isPulseStart e.signal with
    | true => simp [hstart] at h
    | false =>
      cases hend : isPulseEnd e.signal with
      | true =>
        simp only [hstart, hend, Bool.false_eq_true, if_true, if_false] at h
        obtain rfl := watch_after h
        exact ⟨[], e, rfl, hend, by simpa using hstart, by simp⟩
      | false =>
        simp only [hstart, hend, Bool.false_eq_true, if_false] at h
        obtain ⟨middle, last, rfl, hlast, hstarts, hends⟩ := ih h
        refine ⟨e :: middle, last, rfl, hlast, ?_, ?_⟩
        · exact List.forall_mem_cons.mpr ⟨hstart, hstarts⟩
        · exact List.forall_mem_cons.mpr ⟨hend, hends⟩

theorem wellFormedPulse_of_watch {n : ℕ} (h : watch checkPulse (1, .before) out = some (n, .after)) :
    WellFormedPulse out := by
  obtain ⟨hseq, hphase⟩ := (watch_both _ _ _ _ _ _ _).mp h
  cases out with
  | nil => cases hphase
  | cons first out =>
    simp only [watch, phaseStep] at hphase
    cases hstart : isPulseStart first.signal with
    | false => simp [hstart] at hphase
    | true =>
      simp only [hstart, if_true] at hphase
      obtain ⟨middle, last, rfl, hlast, hstarts, hends⟩ := watch_inside hphase
      have hfirst : isPulseEnd first.signal = false := by
        cases hsig : first.signal <;> simp_all [isPulseStart, isPulseEnd]
      refine ⟨⟨first, _, rfl, hstart⟩, ⟨first :: middle, last, rfl, hlast⟩, ?_, ?_, ?_⟩
      · have hnone : (middle ++ [last]).countP (fun e => isPulseStart e.signal) = 0 :=
          List.countP_eq_zero.mpr fun e he => by simp [hstarts e he]
        rw [List.countP_cons, hnone, hstart]
        rfl
      · have hnone : middle.countP (fun e => isPulseEnd e.signal) = 0 :=
          List.countP_eq_zero.mpr fun e he => by simp [hends e he]
        rw [List.countP_cons, List.countP_append, hnone, hfirst]
        simp [hlast]
      · intro i hi
        rw [seq_of_watch (by decide) hseq i hi, Nat.add_comm]

/-! ### Events -/

variable (ingress : Ingress)

/-- What a parser in adapter mode handles: a decoded payload (a frame that cannot be decoded is the
error item of the provider), or a protocol error. -/
inductive IngressEvent where
  | payload (payload : IngressPayload)
  | protocolError (code message : String)

namespace StreamParser

def handle : IngressEvent → Parse Unit
  | .payload payload => adaptProtocolPayload ingress payload
  | .protocolError code message => do
    emit (← protocolStreamErrorEnvelope ingress code message)

def runStream (events : List IngressEvent) : Parse Unit := do
  forEach events (handle ingress)
  finish ingress

def reportsError : IngressEvent → Bool
  | .payload (.provider item) => RuntimeEnvelopeNormalizer.itemIsError ingress item
  | .payload (.chatCompat _) => false
  | .protocolError .. => true

def pulseOpen (s : StreamParser) : Bool :=
  s.protocolAdapter.any fun normalizer => normalizer.protocolIngress.turnStarted

/-- In the run of the events from `s`, an error is reported only while the pulse is open. -/
def ErrorsInsidePulse : List IngressEvent → StreamParser → Prop
  | [], _ => True
  | event :: events, s =>
    (reportsError ingress event = true → s.pulseOpen = true) ∧
      match handle ingress event s with
      | none => True
      | some (_, _, s') => ErrorsInsidePulse events s'

instance decidableErrorsInsidePulse :
    (events : List IngressEvent) → (s : StreamParser) → Decidable (ErrorsInsidePulse ingress events s)
  | [], _ => isTrue trivial
  | event :: events, s =>
    @instDecidableAnd _ _ _ (match handle ingress event s with
      | none => isTrue trivial
      | some (_, _, s') => decidableErrorsInsidePulse events s')

/-- The parser in adapter mode, against the phase of what it has emitted. -/
def ParserInv (s : StreamParser) (m : ℕ × Phase) : Prop :=
  match s.protocolAdapter with
  | none => s.outputMode = .undecided ∧ m = (1, .before)
  | some normalizer => s.outputMode = .protocolAdapter ∧ PulseInv normalizer m

theorem pulseInv_new (taskId : String) : PulseInv { taskId } (1, .before) := Or.inr ⟨rfl, rfl, rfl, rfl⟩

theorem parserInv_new (taskCounter : ℕ) :
    ParserInv { nextStreamTaskId := taskCounter } (1, .before) := ⟨rfl, rfl⟩

def normalizer (s : StreamParser) : RuntimeEnvelopeNormalizer :=
  s.protocolAdapter.getD { taskId := s.nextTaskId }

variable {s s' : StreamParser} {m : ℕ × Phase} {out : List RuntimeEnvelope} {event : IngressEvent}

theorem ParserInv.normalizer (h : ParserInv s m) : PulseInv s.normalizer m := by
  unfold ParserInv at h
  unfold StreamParser.normalizer
  cases hs : s.protocolAdapter with
  | none => rw [hs] at h; obtain ⟨-, rfl⟩ := h; exact pulseInv_new _
  | some n => rw [hs] at h; exact h.2

theorem withAdapter_eq_some {α : Type} {x : Emit α} {a : α} (h : withAdapter x s = some (a, out, s')) :
    ∃ n', x s.normalizer = some (a, out, n') ∧ s'.protocolAdapter = some n' ∧
      s'.outputMode = s.outputMode := by
  unfold withAdapter at h
  unfold StreamParser.normalizer
  cases hs : s.protocolAdapter with
  | none | some n =>
    simp only [hs] at h
    split at h
    · cases h
    · rename_i a' out' n' hx
      obtain ⟨rfl, rfl, rfl⟩ := by simpa using h
      exact ⟨n', hx, rfl, rfl⟩

/-- An open pulse is one that the normaliser is inside of. -/
theorem ParserInv.inside (h : ParserInv s m) (hopen : s.pulseOpen = true) : Inside s.normalizer m := by
  unfold ParserInv at h
  unfold pulseOpen at hopen
  unfold StreamParser.normalizer
  cases hs : s.protocolAdapter with
  | none => rw [hs] at hopen; cases hopen
  | some n =>
    rw [hs] at h hopen
    rcases h.2 with hin | hidle
    · exact hin
    · exact absurd (hidle.started.symm.trans hopen) Bool.noConfusion

theorem ParserInv.idle (h : ParserInv s m) (hopen : s.pulseOpen = false) : Idle s.normalizer m := by
  unfold pulseOpen at hopen
  have hn := h.normalizer
  rcases hn with hin | hidle
  · have hstarted := hin.started
    unfold StreamParser.normalizer at hstarted
    cases hs : s.protocolAdapter with
    | none => rw [hs] at hstarted; cases hstarted
    | some n =>
      rw [hs] at hopen hstarted
      exact absurd (hopen.symm.trans hstarted) Bool.noConfusion
  · exact hidle

theorem ParserInv.mode (h : ParserInv s m) : s.outputMode ≠ .runtimeEnvelope := by
  unfold ParserInv at h
  cases hs : s.protocolAdapter with
  | none | some n => rw [hs] at h; rw [h.1]; exact StreamOutputMode.noConfusion

def handleOn : IngressEvent → Emit Unit
  | .payload payload => adaptPayload ingress payload
  | .protocolError code message => do
    emit (← RuntimeEnvelopeNormalizer.emitProtocolIngressError ingress code message)

theorem handle_eq_some (hs : ParserInv s m) (h : handle ingress event s = some ((), out, s')) :
    ∃ n', handleOn ingress event s.normalizer = some ((), out, n') ∧
      s'.protocolAdapter = some n' ∧ s'.outputMode = .protocolAdapter := by
  have hmode := hs.mode
  cases event with
  | payload payload =>
    simp only [handle, adaptProtocolPayload, bind_of_some (read_run s), prepend_nil, if_neg hmode,
      bind_of_some (modify_run _ s)] at h
    exact withAdapter_eq_some h
  | protocolError code message =>
    obtain ⟨e, out₁, s₁, out₂, h₁, h₂, rfl⟩ := bind_eq_some h
    simp only [protocolStreamErrorEnvelope, bind_of_some (read_run s), prepend_nil, if_neg hmode,
      bind_of_some (modify_run _ s)] at h₁
    obtain ⟨n', hrun, hadapter, hmode'⟩ := withAdapter_eq_some h₁
    obtain ⟨rfl, rfl⟩ := by simpa using h₂
    refine ⟨n', ?_, hadapter, hmode'⟩
    have hnorm : normalizer { s with outputMode := .protocolAdapter } = s.normalizer := rfl
    rw [hnorm] at hrun
    simp only [handleOn, bind_of_some hrun]
    rfl

theorem handleOn_spec (h : reportsError ingress event = false) :
    Keeps checkPulse PulseInv (handleOn ingress event) := by
  cases event with
  | payload payload =>
    cases payload with
    | provider item => exact pulseInv_normalizeProviderStreamItem ingress h
    | chatCompat payload =>
      exact pulseInv_normalizeChatCompatPayload ingress payload
  | protocolError code message => cases h

theorem handleOn_inside (event : IngressEvent) : Keeps checkPulse Inside (handleOn ingress event) := by
  cases event with
  | payload payload =>
    cases payload with
    | provider item => exact inside_normalizeProviderStreamItem ingress item
    | chatCompat payload =>
      exact inside_of_pulseInv
        (pulseInv_normalizeChatCompatPayload ingress payload)
  | protocolError code message =>
    intro n m a out n' hn hrun
    have hensure : ensureProtocolIngressTurnStarted ingress n =
        some ([], [], n) := by
      simp only [ensureProtocolIngressTurnStarted,
        bind_of_some (read_run n), prepend_nil, hn.started, if_true, pure_run]
    refine inside_emitSignal ingress.toHost
      (show isPulseStart (.error code message true) = false from rfl) rfl n m a out n' hn ?_
    simp only [handleOn, emitProtocolIngressError] at hrun
    rw [bind_run, bind_of_some hensure, prepend_nil] at hrun
    exact hrun

/-- A step that meets the condition keeps the invariant. -/
theorem handle_spec (hs : ParserInv s m) (hcond : reportsError ingress event = true → s.pulseOpen = true)
    (h : handle ingress event s = some ((), out, s')) :
    ∃ m', watch checkPulse m out = some m' ∧ ParserInv s' m' := by
  obtain ⟨n', hrun, hadapter, hmode⟩ := handle_eq_some ingress hs h
  have hinv : ∀ m', PulseInv n' m' → ParserInv s' m' := by
    intro m' hn'
    unfold ParserInv
    rw [hadapter]
    exact ⟨hmode, hn'⟩
  cases herr : reportsError ingress event with
  | false =>
    obtain ⟨m', hw, hn'⟩ := handleOn_spec ingress herr _ _ _ _ _ hs.normalizer hrun
    exact ⟨m', hw, hinv m' hn'⟩
  | true =>
    obtain ⟨m', hw, hn'⟩ := handleOn_inside ingress event _ _ _ _ _ (hs.inside (hcond herr)) hrun
    exact ⟨m', hw, hinv m' (Or.inl hn')⟩

theorem emitErrorSignal_run (code message : String) (n : RuntimeEnvelopeNormalizer) :
    ∃ e n', RuntimeEnvelopeNormalizer.emitErrorSignal ingress code message n =
      some ((), [e], n') ∧ isPulseStart e.signal = false := by
  obtain ⟨e, n', hrun, hsig, -⟩ := emit_run_of_creates
    (creates_nextEnvelopeWithSource ingress.toHost
      (.error code message true) none none none) n
  exact ⟨e, n', hrun, by rw [hsig]; rfl⟩

theorem handleOn_error (herr : reportsError ingress event = true) {n n' : RuntimeEnvelopeNormalizer}
    (h : handleOn ingress event n = some ((), out, n')) :
    ∃ e, out = [e] ∧ isPulseStart e.signal = false := by
  have hsignal : ∀ code message n₁,
      emitErrorSignal ingress code message n₁ = some ((), out, n') →
        ∃ e, out = [e] ∧ isPulseStart e.signal = false := by
    intro code message n₁ hrun
    obtain ⟨e, n₂, hrun', hsig⟩ := emitErrorSignal_run ingress code message n₁
    rw [hrun'] at hrun
    obtain ⟨rfl, -⟩ := by simpa using hrun
    exact ⟨e, rfl, hsig⟩
  cases event with
  | protocolError code message =>
    simp only [handleOn, emitProtocolIngressError] at h
    cases hstarted : n.protocolIngress.turnStarted with
    | true =>
      have hensure : ensureProtocolIngressTurnStarted ingress n =
          some ([], [], n) := by
        simp only [ensureProtocolIngressTurnStarted,
          bind_of_some (read_run n), prepend_nil, hstarted, if_true, pure_run]
      rw [bind_run, bind_of_some hensure] at h
      exact hsignal code message n h
    | false =>
      obtain ⟨l, n₁, hensure⟩ : ∃ l n₁,
          ensureProtocolIngressTurnStarted ingress n = some (l, [], n₁) := by
        simp only [ensureProtocolIngressTurnStarted,
          bind_of_some (read_run n), prepend_nil, hstarted]
        exact ⟨_, _, rfl⟩
      rw [bind_run, bind_of_some hensure] at h
      exact hsignal code message n₁ h
  | payload payload =>
    cases payload with
    | chatCompat payload => cases herr
    | provider item =>
      cases item with
      | error errorType message => exact hsignal errorType message n h
      | contentBlockStart index contentBlock =>
        simp only [reportsError, itemIsError] at herr
        simp only [handleOn, adaptPayload, normalizeProviderStreamItem] at h
        cases hblock : ingress.contentBlock contentBlock with
        | ok block => rw [hblock] at herr; cases herr
        | error err =>
          simp only [hblock] at h
          split at h
          · cases h
          · exact hsignal _ _ n h
      | _ => cases herr

/-! ### Runs -/

/-- A run that meets the condition keeps the invariant; in a run that does not, the first envelope
is an error. -/
theorem run_spec (events : List IngressEvent) (hs : ParserInv s m)
    (h : forEach events (handle ingress) s = some ((), out, s')) :
    (ErrorsInsidePulse ingress events s → ∃ m', watch checkPulse m out = some m' ∧ ParserInv s' m') ∧
      (¬ ErrorsInsidePulse ingress events s →
        m.2 = .before ∧ ∃ first rest, out = first :: rest ∧ isPulseStart first.signal = false) := by
  induction events generalizing s m out with
  | nil =>
    obtain ⟨rfl, rfl⟩ := by simpa [forEach] using h
    exact ⟨fun _ => ⟨m, rfl, hs⟩, fun hne => absurd trivial hne⟩
  | cons event events ih =>
    obtain ⟨⟨⟩, out₁, s₁, out₂, h₁, h₂, rfl⟩ := bind_eq_some h
    simp only [ErrorsInsidePulse, h₁]
    by_cases hcond : reportsError ingress event = true → s.pulseOpen = true
    · obtain ⟨m₁, hw₁, hs₁⟩ := handle_spec ingress hs hcond h₁
      obtain ⟨hgood, hbad⟩ := ih hs₁ h₂
      constructor
      · rintro ⟨-, hrest⟩
        obtain ⟨m', hw', hs'⟩ := hgood hrest
        exact ⟨m', by rw [watch_append, hw₁]; exact hw', hs'⟩
      · intro hne
        obtain ⟨hm₁, hfirst⟩ := hbad fun hrest => hne ⟨hcond, hrest⟩
        obtain ⟨rfl, rfl⟩ := eq_nil_of_before hw₁ hm₁
        exact ⟨hm₁, hfirst⟩
    · obtain ⟨herr, hopen⟩ : reportsError ingress event = true ∧ s.pulseOpen = false := by
        simpa using hcond
      refine ⟨fun hall => absurd hall.1 hcond, fun _ => ?_⟩
      obtain ⟨n', hrun, -, -⟩ := handle_eq_some ingress hs h₁
      obtain ⟨e, rfl, he⟩ := handleOn_error ingress herr hrun
      exact ⟨(hs.idle hopen).phase, e, out₂, rfl, he⟩

theorem finish_spec (hs : ParserInv s m) (h : finish ingress s = some ((), out, s')) :
    ∃ m', watch checkPulse m out = some m' ∧ (m'.2 = .after ∨ m'.2 = .before) := by
  simp only [finish, bind_of_some (read_run s), prepend_nil] at h
  split at h
  · obtain ⟨n', hrun, -, -⟩ := withAdapter_eq_some h
    obtain ⟨m', hw, hphase⟩ := finishProtocolIngressTurn_spec ingress
      _ _ _ _ _ hs.normalizer hrun
    exact ⟨m', hw, hphase⟩
  · rename_i hmode
    obtain ⟨rfl, rfl⟩ := by simpa using h
    refine ⟨m, rfl, Or.inr ?_⟩
    unfold ParserInv at hs
    cases hadapter : s.protocolAdapter with
    | none => rw [hadapter] at hs; rw [hs.2]
    | some n => rw [hadapter] at hs; exact absurd hs.1 hmode

/-- **One pulse per stream**: what a run of the parser emits, if it emits anything, is a well-formed
pulse exactly when every error of the run is reported while the pulse is open. -/
theorem wellFormedPulse_iff (taskCounter : ℕ) (events : List IngressEvent)
    (out : List RuntimeEnvelope) (s' : StreamParser)
    (h : runStream ingress events { nextStreamTaskId := taskCounter } = some ((), out, s')) :
    (out ≠ [] → WellFormedPulse out) ↔
      ErrorsInsidePulse ingress events { nextStreamTaskId := taskCounter } := by
  obtain ⟨⟨⟩, out₁, s₁, out₂, h₁, h₂, rfl⟩ := bind_eq_some h
  obtain ⟨hgood, hbad⟩ := run_spec ingress events (parserInv_new taskCounter) h₁
  constructor
  · intro hwf
    by_contra hne
    obtain ⟨-, first, rest, rfl, hfirst⟩ := hbad hne
    obtain ⟨first', rest', heq, hstart⟩ := (hwf (by simp)).starts
    obtain rfl : first = first' := (List.cons.inj heq).1
    rw [hfirst] at hstart
    cases hstart
  · intro hcond hne
    obtain ⟨m₁, hw₁, hs₁⟩ := hgood hcond
    obtain ⟨m', hw', hphase⟩ := finish_spec ingress hs₁ h₂
    have hw : watch checkPulse (1, .before) (out₁ ++ out₂) = some m' := by
      rw [watch_append, hw₁]
      exact hw'
    rcases hphase with hafter | hbefore
    · obtain ⟨n, phase⟩ := m'
      obtain rfl : phase = .after := hafter
      exact wellFormedPulse_of_watch hw
    · exact absurd (eq_nil_of_before hw hbefore).1 hne

def sampleEvents : List IngressEvent :=
  [.payload (.chatCompat (.chunk { choices := [{ delta := { content := some "hi" } }] })),
    .protocolError "sse_parse_error" "bad frame"]

theorem wellFormedPulse_iff_sample : ∃ out s',
    runStream sampleIngress sampleEvents { nextStreamTaskId := 1 } = some ((), out, s') ∧
      out.length = 6 ∧ WellFormedPulse out :=
  ⟨_, _, rfl, rfl, (wellFormedPulse_iff sampleIngress 1 sampleEvents _ _ rfl).mpr (by decide)
    (List.cons_ne_nil _ _)⟩

/-- **The error without a pulse**: a stream whose only frame cannot be decoded emits one envelope,
and it does not start a pulse. -/
theorem error_without_pulse : ∃ out s',
    runStream sampleIngress [.payload (.provider (.error "sse_parse_error" "expected value"))]
      { nextStreamTaskId := 1 } = some ((), out, s') ∧ ¬ (out ≠ [] → WellFormedPulse out) := by
  refine ⟨_, _, rfl, fun hwf => ?_⟩
  obtain ⟨first, rest, heq, hstart⟩ := (hwf (List.cons_ne_nil _ _)).starts
  obtain rfl := (List.cons.inj heq).1
  cases hstart

end StreamParser

end Vexcoder.Stream

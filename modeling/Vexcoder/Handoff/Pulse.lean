import Vexcoder.Handoff.Updates

/-!
# The frame of a pulse

The phase of a stream of envelopes is before, inside or after its pulse.  `PulseInv` relates the
normaliser to the phase of what it has emitted: an open turn is inside the pulse, and without one
nothing has been emitted and no block is open.  Every operation of protocol ingress keeps it, except
an error that is reported before the pulse is open.
-/

namespace Vexcoder.Handoff

open Base Lib Lib.Assoc Lib.Emitter Vexcoder.Runtime
open Vexcoder.Stream

inductive Phase where
  | before
  | inside
  | after
  deriving DecidableEq

def isPulseStart : RuntimeSignal → Bool
  | .pulseStart _ => true
  | _ => false

def isPulseEnd : RuntimeSignal → Bool
  | .pulseEnd .. => true
  | _ => false

def phaseStep : Phase → RuntimeEnvelope → Option Phase
  | .before, e => if isPulseStart e.signal then some .inside else none
  | .inside, e =>
    if isPulseStart e.signal then none
    else if isPulseEnd e.signal then some .after
    else some .inside
  | .after, _ => none

def checkPulse : ℕ × Phase → RuntimeEnvelope → Option (ℕ × Phase) := both checkSeq phaseStep

structure Inside (s : RuntimeEnvelopeNormalizer) (m : ℕ × Phase) : Prop where
  number : m.1 = s.nextSeq
  phase : m.2 = .inside
  started : s.protocolIngress.turnStarted = true
  noText : s.openFinalTextBlock = none

/-- No turn has been opened, and nothing has been emitted. -/
structure Idle (s : RuntimeEnvelopeNormalizer) (m : ℕ × Phase) : Prop where
  number : m.1 = s.nextSeq
  phase : m.2 = .before
  started : s.protocolIngress.turnStarted = false
  noBlocks : s.protocolIngress.openBlocks = []

def PulseInv (s : RuntimeEnvelopeNormalizer) (m : ℕ × Phase) : Prop := Inside s m ∨ Idle s m

namespace RuntimeEnvelopeNormalizer

variable (host : Host) (ingress : Ingress)

/-! ### Single steps -/

variable {signal : RuntimeSignal} (index : ℕ)

theorem inside_of_reports {s s' : RuntimeEnvelopeNormalizer} {m : ℕ × Phase}
    {out : List RuntimeEnvelope} (hs : Inside s m) (h : Reports signal s out s')
    (hstart : isPulseStart signal = false) (hend : isPulseEnd signal = false) :
    ∃ m', watch checkPulse m out = some m' ∧ Inside s' m' := by
  obtain ⟨number, phase⟩ := m
  obtain ⟨rfl, rfl, hstarted, -⟩ := hs
  obtain ⟨⟨first, rest, rfl, hsig, hrest⟩, hnum, hin, hopen⟩ := h
  refine ⟨(s'.nextSeq, .inside), (watch_both _ _ _ _ _ _ _).mpr ⟨hnum, ?_⟩, rfl, rfl, ?_, hopen⟩
  · have hall : ∀ e ∈ first :: rest, phaseStep .inside e = some .inside := by
      intro e he
      rcases List.mem_cons.mp he with rfl | he
      · simp [phaseStep, hsig, hstart, hend]
      · have htool := hrest e he
        cases hes : e.signal <;> simp_all [phaseStep, isToolSignal, isPulseStart, isPulseEnd]
    exact watch_of_ignored hall
  · rw [hin]; exact hstarted

theorem reportedSignal_neutral {update : UiUpdate} (hu : reportedSignal update = some signal) :
    isPulseStart signal = false ∧ isPulseEnd signal = false := by
  cases update with
  | streamBlockStart index block =>
    cases block with
    | toolResult id output isError => cases hu
    | _ => obtain rfl := Option.some.inj hu; exact ⟨rfl, rfl⟩
  | streamBlockDelta index delta | streamBlockComplete index | serverMetadata metadata =>
    obtain rfl := Option.some.inj hu; exact ⟨rfl, rfl⟩
  | _ => cases hu

theorem inside_update {update : UiUpdate} (hu : reportedSignal update = some signal)
    (turnEnd : Option PulseEndContext) :
    Keeps checkPulse Inside (normalizeUiUpdate host update turnEnd) :=
  Spec.of_run fun s m hs => by
    obtain ⟨out, s', hrun, hrep⟩ := reports_update host hu turnEnd hs.noText
    obtain ⟨hstart, hend⟩ := reportedSignal_neutral hu
    obtain ⟨m', hw, hin⟩ := inside_of_reports hs hrep hstart hend
    exact ⟨(), out, s', m', hrun, hw, hin⟩

theorem inside_emitSignal (hstart : isPulseStart signal = false) (hend : isPulseEnd signal = false) :
    Keeps checkPulse Inside (do emit (← emitSignal host signal)) :=
  Spec.of_run fun s m hs => by
    obtain ⟨out, s', hrun, hrep⟩ := reports_emit host signal none hs.noText
    obtain ⟨m', hw, hin⟩ := inside_of_reports hs hrep hstart hend
    exact ⟨(), out, s', m', hrun, hw, hin⟩

theorem inside_modifyIngress {f : ProtocolIngressState → ProtocolIngressState}
    (hf : ∀ p, (f p).turnStarted = p.turnStarted) : Keeps checkPulse Inside (modifyIngress f) :=
  Spec.modify fun s _ hs => ⟨hs.number, hs.phase, (hf s.protocolIngress).trans hs.started, hs.noText⟩

theorem pulseInv_ensure :
    Spec checkPulse PulseInv (ensureProtocolIngressTurnStarted ingress)
      fun out s m => ∃ m', watch checkPulse m out = some m' ∧ Inside s m' := by
  refine Spec.or (Spec.of_run fun s m hs => ?_) (Spec.of_run fun s m hs => ?_)
  · refine ⟨[], [], s, m, ?_, rfl, m, rfl, hs⟩
    simp only [ensureProtocolIngressTurnStarted, bind_of_some (read_run s), prepend_nil,
      hs.started, if_true, pure_run]
  · obtain ⟨number, phase⟩ := m
    obtain ⟨rfl, rfl, hstarted, -⟩ := hs
    obtain ⟨e, s', hrun, hsig, hseq, hnext, hin, hopen⟩ :
        ∃ e s', ensureProtocolIngressTurnStarted ingress s = some ([e], [], s') ∧
          isPulseStart e.signal = true ∧ e.seq = s.nextSeq ∧
          s'.nextSeq = saturatingSucc s.nextSeq ∧ s'.protocolIngress.turnStarted = true ∧
          s'.openFinalTextBlock = none := by
      simp only [ensureProtocolIngressTurnStarted, bind_of_some (read_run s), prepend_nil, hstarted]
      exact ⟨_, _, rfl, rfl, rfl, rfl, rfl, rfl⟩
    refine ⟨[e], [], s', _, hrun, rfl, (s'.nextSeq, .inside), ?_, rfl, rfl, hin, hopen⟩
    refine (watch_both _ _ _ _ _ _ _).mpr ⟨?_, ?_⟩
    · simp [watch, checkSeq, hseq, hnext]
    · simp [watch, phaseStep, hsig]

theorem pulseInv_modifyIngress {f : ProtocolIngressState → ProtocolIngressState}
    (hf : ∀ p, (f p).turnStarted = p.turnStarted) (hb : ∀ p, (f p).openBlocks = p.openBlocks) :
    Keeps checkPulse PulseInv (modifyIngress f) := by
  refine Spec.modify fun s _ hs => ?_
  rcases hs with hs | hs
  · exact Or.inl ⟨hs.number, hs.phase, (hf s.protocolIngress).trans hs.started, hs.noText⟩
  · exact Or.inr ⟨hs.number, hs.phase, (hf s.protocolIngress).trans hs.started,
      (hb s.protocolIngress).trans hs.noBlocks⟩

/-- An operation that starts the pulse and then stays inside it. -/
theorem pulseInv_of_inside {α : Type} {x : Emit α} (h : Keeps checkPulse Inside x) :
    Spec checkPulse Inside x fun _ => PulseInv :=
  h.conseq (fun _ _ hs => hs) fun _ _ _ hs => Or.inl hs

theorem phaseStep_ne_before {phase phase' : Phase} {e : RuntimeEnvelope}
    (h : phaseStep phase e = some phase') : phase' ≠ .before := by
  cases phase with
  | after => cases h
  | before =>
    simp only [phaseStep] at h
    split at h <;> cases h
    exact Phase.noConfusion
  | inside =>
    simp only [phaseStep] at h
    split at h
    · cases h
    · split at h <;> cases h <;> exact Phase.noConfusion

/-- Only a stream without envelopes is still before its pulse. -/
theorem eq_nil_of_before {m m' : ℕ × Phase} {out : List RuntimeEnvelope}
    (h : watch checkPulse m out = some m') (hm : m'.2 = .before) : out = [] ∧ m = m' := by
  induction out generalizing m with
  | nil => exact ⟨rfl, Option.some.inj h⟩
  | cons e out ih =>
    simp only [watch] at h
    split at h
    · cases h
    rename_i m₁ hstep
    obtain ⟨-, rfl⟩ := ih h
    obtain ⟨n₁, -, hmap⟩ := Option.bind_eq_some_iff.mp hstep
    obtain ⟨phase₁, hphase, rfl⟩ := Option.map_eq_some_iff.mp hmap
    exact absurd hm (phaseStep_ne_before hphase)

theorem inside_of_pulseInv {α : Type} {x : Emit α} (h : Keeps checkPulse PulseInv x) :
    Keeps checkPulse Inside x := by
  intro s m a out s' hs hx
  obtain ⟨m', hw, hin | hidle⟩ := h s m a out s' (Or.inl hs) hx
  · exact ⟨m', hw, hin⟩
  · obtain ⟨-, rfl⟩ := eq_nil_of_before hw hidle.phase
    exact absurd (hs.phase.symm.trans hidle.phase) Phase.noConfusion

/-! ### Blocks -/

theorem inside_emitChunksWith {tagged : String → Value → Emit Unit}
    (h : ∀ name input, Keeps checkPulse Inside (tagged name input)) (index : ℕ)
    (chunks : List NormalisedChunk) :
    Keeps checkPulse Inside (emitChunksWith ingress tagged index chunks) := by
  refine Spec.forEach fun chunk _ => ?_
  cases chunk with
  | text text => exact inside_update ingress.toHost rfl none
  | taggedToolCall name input => exact h name input

section Recursion

variable {emitChunks : ℕ → List NormalisedChunk → Emit Unit}
  (h : ∀ index chunks, Keeps checkPulse Inside (emitChunks index chunks))

include h

variable (index : ℕ)

theorem inside_applyNormalisedProviderTextWith (delta : String) :
    Keeps checkPulse Inside (applyNormalisedProviderTextWith ingress emitChunks index delta) := by
  refine Spec.read_any fun s => ?_
  dsimp only
  split
  · exact Spec.crash
  · exact Spec.bind (inside_modifyIngress fun _ => rfl) fun _ => h index _

theorem pulseInv_openProviderStreamBlockWith (contentBlock : ProviderContentBlock) :
    Keeps checkPulse PulseInv (openProviderStreamBlockWith ingress emitChunks index contentBlock) := by
  simp only [openProviderStreamBlockWith]
  split
  · exact Spec.pure fun _ _ hs => hs
  rename_i block initialDelta hblock
  have hreport : reportedSignal (.streamBlockStart index block) =
      some (.transcriptBlockStart index block) := by
    cases contentBlock <;> cases hblock <;> rfl
  refine Spec.bind (pulseInv_ensure ingress) fun _ => Spec.bind Spec.emitAll fun _ => ?_
  refine pulseInv_of_inside (Spec.bind (inside_modifyIngress fun _ => rfl) fun _ => ?_)
  refine Spec.bind (Spec.onlyIf fun _ => inside_modifyIngress fun _ => rfl) fun _ => ?_
  refine Spec.bind (inside_update ingress.toHost hreport none) fun _ => ?_
  refine Spec.forSome fun delta _ => ?_
  split
  · exact inside_applyNormalisedProviderTextWith ingress h index delta
  · exact inside_update ingress.toHost rfl none

theorem pulseInv_closeProviderStreamBlockWith :
    Keeps checkPulse PulseInv (closeProviderStreamBlockWith ingress emitChunks index) := by
  refine Spec.read fun s => ?_
  split
  · rename_i hopen
    -- a block is open, so the pulse is
    refine Spec.conseq (P := Inside) ?_ ?_ fun _ _ _ hs => Or.inl hs
    · refine Spec.bind (inside_modifyIngress fun _ => rfl) fun _ => ?_
      refine Spec.bind (Spec.forSome fun normaliser _ => h index normaliser.finish) fun _ => ?_
      exact inside_update ingress.toHost rfl none
    · rintro s' m ⟨rfl, hs | hs⟩
      · exact hs
      · rw [hs.noBlocks] at hopen
        cases hopen
  · exact Spec.pure fun _ _ hs => hs.2

theorem inside_emitTaggedToolCallFromTextWith (name : String) (input : Value) :
    Keeps checkPulse Inside (emitTaggedToolCallFromTextWith ingress emitChunks name input) := by
  refine Spec.read_any fun s => ?_
  split
  · exact Spec.pure fun _ _ hs => hs
  · refine Spec.bind (inside_modifyIngress fun _ => rfl) fun _ => ?_
    refine Spec.bind (inside_of_pulseInv (pulseInv_openProviderStreamBlockWith ingress h _ _))
      fun _ => ?_
    exact inside_of_pulseInv (pulseInv_closeProviderStreamBlockWith ingress h _)

end Recursion

theorem inside_emitNormalisedProviderChunksAt (depth index : ℕ) (chunks : List NormalisedChunk) :
    Keeps checkPulse Inside (emitNormalisedProviderChunksAt ingress depth index chunks) := by
  induction depth generalizing index chunks with
  | zero => exact inside_emitChunksWith ingress (fun _ _ => Spec.crash) index chunks
  | succ depth ih =>
    exact inside_emitChunksWith ingress (inside_emitTaggedToolCallFromTextWith ingress ih) index chunks

theorem inside_emitNormalisedProviderChunks (chunks : List NormalisedChunk) :
    Keeps checkPulse Inside (emitNormalisedProviderChunks ingress index chunks) :=
  inside_emitNormalisedProviderChunksAt ingress 1 index chunks

theorem pulseInv_openProviderStreamBlock (contentBlock : ProviderContentBlock) :
    Keeps checkPulse PulseInv (openProviderStreamBlock ingress index contentBlock) :=
  pulseInv_openProviderStreamBlockWith ingress (inside_emitNormalisedProviderChunks ingress) _ _

theorem pulseInv_closeProviderStreamBlock :
    Keeps checkPulse PulseInv (closeProviderStreamBlock ingress index) :=
  pulseInv_closeProviderStreamBlockWith ingress (inside_emitNormalisedProviderChunks ingress) _

theorem pulseInv_applyProviderStreamDelta (blockDelta : ProviderBlockDelta) :
    Keeps checkPulse PulseInv (applyProviderStreamDelta ingress index blockDelta) := by
  cases blockDelta with
  | text delta =>
    simp only [applyProviderStreamDelta]
    split
    · exact Spec.pure fun _ _ hs => hs
    refine Spec.bind (pulseInv_ensure ingress) fun _ => Spec.bind Spec.emitAll fun _ => ?_
    refine pulseInv_of_inside (Spec.bind (R := fun _ => Inside) ?_ fun _ => ?_)
    · refine Spec.read_any fun s => ?_
      split
      · exact Spec.pure fun _ _ hs => hs
      · exact Spec.bind (inside_modifyIngress fun _ => rfl) fun _ =>
          inside_update ingress.toHost rfl none
    · exact inside_applyNormalisedProviderTextWith ingress
        (inside_emitNormalisedProviderChunks ingress) index delta
  | toolArguments delta =>
    simp only [applyProviderStreamDelta]
    split
    · exact Spec.pure fun _ _ hs => hs
    · refine Spec.bind (pulseInv_ensure ingress) fun _ => Spec.bind Spec.emitAll fun _ => ?_
      exact pulseInv_of_inside (inside_update ingress.toHost rfl none)

/-! ### Metadata, usage and tool calls -/

theorem pulseInv_emitProviderMetadata (metadata : StreamChunkMetadata) :
    Keeps checkPulse PulseInv (emitProviderMetadata ingress metadata) := by
  refine Spec.bind (pulseInv_ensure ingress) fun _ => Spec.bind Spec.emitAll fun _ => ?_
  exact pulseInv_of_inside (inside_update ingress.toHost rfl none)

theorem pulseInv_emitProviderUsage (usage : ApiUsage) :
    Keeps checkPulse PulseInv (emitProviderUsage ingress usage) := by
  refine Spec.bind (pulseInv_modifyIngress (fun _ => rfl) fun _ => rfl) fun _ => ?_
  refine Spec.bind (pulseInv_ensure ingress) fun _ => Spec.bind Spec.emitAll fun _ => ?_
  exact pulseInv_of_inside (Spec.forSome fun usage _ => inside_emitSignal ingress.toHost rfl rfl)

theorem pulseInv_applyChatCompatToolDelta (toolCall : ChatCompatToolCallDelta) :
    Keeps checkPulse PulseInv (applyChatCompatToolDelta ingress toolCall) := by
  refine Spec.read_any fun s => ?_
  dsimp only
  split
  · exact Spec.pure fun _ _ hs => hs
  split
  · exact Spec.pure fun _ _ hs => hs
  refine Spec.bind (pulseInv_modifyIngress (fun _ => rfl) fun _ => rfl) fun _ => ?_
  refine Spec.bind (Spec.forSome fun contentBlock _ => ?_) fun _ => ?_
  · exact Spec.bind (pulseInv_modifyIngress (fun _ => rfl) fun _ => rfl) fun _ =>
      pulseInv_openProviderStreamBlock ingress _ contentBlock
  · exact Spec.forSome fun json _ => pulseInv_applyProviderStreamDelta ingress _ _

theorem pulseInv_closeChatCompatToolBlocks :
    Keeps checkPulse PulseInv (closeChatCompatToolBlocks ingress) := by
  refine Spec.read_any fun s => ?_
  refine Spec.bind (pulseInv_modifyIngress (fun _ => rfl) fun _ => rfl) fun _ => ?_
  exact Spec.forEach fun index _ => pulseInv_closeProviderStreamBlock ingress index

/-! ### Items, chunks and errors -/

/-- The items that are reported as an error: error items, and blocks that cannot be decoded. -/
def itemIsError : ProviderStreamItem → Bool
  | .error .. => true
  | .contentBlockStart _ contentBlock =>
    match ingress.contentBlock contentBlock with
    | .ok _ => false
    | .error _ => true
  | _ => false

theorem pulseInv_normalizeProviderStreamItem {item : ProviderStreamItem}
    (hitem : itemIsError ingress item = false) :
    Keeps checkPulse PulseInv (normalizeProviderStreamItem ingress item) := by
  cases item with
  | messageStart usage metadata | messageDelta metadata usage =>
    refine Spec.bind (Spec.forSome fun metadata _ => ?_) fun _ => Spec.forSome fun usage _ => ?_
    · exact pulseInv_emitProviderMetadata ingress metadata
    · exact pulseInv_emitProviderUsage ingress usage
  | contentBlockStart index contentBlock =>
    simp only [normalizeProviderStreamItem]
    simp only [itemIsError] at hitem
    cases hblock : ingress.contentBlock contentBlock with
    | ok block => exact pulseInv_openProviderStreamBlock ingress index block
    | error err => rw [hblock] at hitem; cases hitem
  | contentBlockDelta index delta =>
    exact Spec.forSome fun delta _ => pulseInv_applyProviderStreamDelta ingress index delta
  | contentBlockStop index => exact pulseInv_closeProviderStreamBlock ingress index
  | messageStop | ping | unknown => exact Spec.pure fun _ _ hs => hs
  | error errorType message => cases hitem

theorem inside_normalizeProviderStreamItem (item : ProviderStreamItem) :
    Keeps checkPulse Inside (normalizeProviderStreamItem ingress item) := by
  cases hitem : itemIsError ingress item with
  | false => exact inside_of_pulseInv (pulseInv_normalizeProviderStreamItem ingress hitem)
  | true =>
    cases item with
    | error errorType message => exact inside_emitSignal ingress.toHost rfl rfl
    | contentBlockStart index contentBlock =>
      simp only [normalizeProviderStreamItem]
      simp only [itemIsError] at hitem
      cases hblock : ingress.contentBlock contentBlock with
      | ok block => rw [hblock] at hitem; cases hitem
      | error err =>
        simp only
        split
        · exact Spec.crash
        · exact inside_emitSignal ingress.toHost rfl rfl
    | _ => cases hitem

theorem pulseInv_normalizeChatCompatPayload (payload : ChatCompatPayload) :
    Keeps checkPulse PulseInv (normalizeChatCompatPayload ingress payload) := by
  cases payload with
  | done =>
    exact Spec.bind (pulseInv_closeChatCompatToolBlocks ingress) fun _ =>
      pulseInv_modifyIngress (fun _ => rfl) fun _ => rfl
  | chunk chunk =>
    refine Spec.bind (R := fun _ => PulseInv) ?_ fun _ => Spec.bind (R := fun _ => PulseInv) ?_
      fun _ => Spec.forEach fun choice _ => ?_
    · refine Spec.read_any fun s => ?_
      dsimp only
      split
      · exact Spec.pure fun _ _ hs => hs
      · split
        · refine Spec.bind (pulseInv_modifyIngress (fun _ => rfl) fun _ => rfl) fun _ => ?_
          exact Spec.forSome fun metadata _ => pulseInv_emitProviderMetadata ingress metadata
        · exact Spec.pure fun _ _ hs => hs
    · refine Spec.forSome fun usage _ => ?_
      refine Spec.bind (Spec.forSome fun metadata _ => ?_) fun _ => ?_
      · exact pulseInv_emitProviderMetadata ingress metadata
      · exact pulseInv_emitProviderUsage ingress _
    · refine Spec.bind (Spec.forSome fun content _ => ?_) fun _ => ?_
      · exact pulseInv_applyProviderStreamDelta ingress 0 _
      refine Spec.bind (Spec.forSome fun reasoning _ => ?_) fun _ => ?_
      · exact pulseInv_applyProviderStreamDelta ingress 0 _
      refine Spec.bind (Spec.forEach fun toolCall _ => ?_) fun _ => ?_
      · exact pulseInv_applyChatCompatToolDelta ingress toolCall
      refine Spec.bind (Spec.forSome fun metadata _ => Spec.onlyIf fun _ => ?_) fun _ => ?_
      · exact pulseInv_emitProviderMetadata ingress metadata
      · exact Spec.onlyIf fun _ => pulseInv_closeChatCompatToolBlocks ingress

/-! ### The end of the turn -/

theorem pulseComplete_spec (context : PulseEndContext) :
    Spec checkPulse Inside (normalizeUiUpdate host .pulseComplete (some context))
      fun _ _ m => m.2 = .after :=
  Spec.of_run fun s m hs => by
    obtain ⟨number, phase⟩ := m
    obtain ⟨rfl, rfl, -, hopen⟩ := hs
    obtain ⟨e, s', changedFiles, hrun, hsig, hseq⟩ := pulseComplete_run host context hopen
    refine ⟨(), [e], s', (s'.nextSeq, .after), hrun, ?_, rfl⟩
    exact (watch_both _ _ _ _ _ _ _).mpr ⟨hseq, by simp [watch, phaseStep, hsig, isPulseStart, isPulseEnd]⟩

/-- Finishing closes the pulse, if one is open. -/
theorem finishProtocolIngressTurn_spec :
    Spec checkPulse PulseInv (finishProtocolIngressTurn ingress)
      fun _ _ m => m.2 = .after ∨ m.2 = .before := by
  refine Spec.read fun s => ?_
  split
  · rename_i hstarted
    refine Spec.conseq (P := Inside) ?_ ?_ fun _ _ _ hs => Or.inl hs
    · refine Spec.bind (inside_modifyIngress fun _ => rfl) fun _ => ?_
      refine Spec.bind (Spec.forEach fun entry _ =>
        inside_emitNormalisedProviderChunks ingress entry.1 entry.2.finish) fun _ => ?_
      refine Spec.read_any fun s => ?_
      refine Spec.bind (inside_modifyIngress fun _ => rfl) fun _ => ?_
      refine Spec.bind (Spec.forEach fun index _ => inside_update ingress.toHost rfl none)
        fun _ => ?_
      refine Spec.read_any fun s => ?_
      refine Spec.bind (inside_modifyIngress fun _ => rfl) fun _ => ?_
      exact Spec.bind (pulseComplete_spec ingress.toHost _) fun _ => Spec.modify fun _ _ hm => hm
    · rintro s' m ⟨rfl, hs | hs⟩
      · exact hs
      · rw [hs.started] at hstarted
        cases hstarted
  · rename_i hstarted
    refine Spec.pure fun s' m hs => Or.inr ?_
    obtain ⟨rfl, hs | hs⟩ := hs
    · exact absurd hs.started hstarted
    · exact hs.phase

end RuntimeEnvelopeNormalizer

end Vexcoder.Handoff

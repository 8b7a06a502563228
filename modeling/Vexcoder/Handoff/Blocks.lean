import Vexcoder.Handoff.Operations
import Vexcoder.Handoff.Updates

/-!
# Transcript blocks are bracketed

`bracketStep` is the monitor of the open blocks: a start names a closed index, a delta and a complete
name an open one.  The block operations of protocol ingress have pure conditions on the state they
start from (`ClearOp`), under which the monitor and the normaliser agree on the open blocks; without
them the source opens a block twice, or writes to one that is closed.
-/

namespace Vexcoder.Handoff

open Base Lib Lib.Assoc Lib.Emitter Vexcoder.Runtime
open Vexcoder.Stream

def bracketStep (opens : List ℕ) (envelope : RuntimeEnvelope) : Option (List ℕ) :=
  match envelope.signal with
  | .transcriptBlockStart index _ => if index ∈ opens then none else some (index :: opens)
  | .transcriptBlockDelta index _ => if index ∈ opens then some opens else none
  | .transcriptBlockComplete index =>
    if index ∈ opens then some (opens.filter (· ≠ index)) else none
  | _ => some opens

/-- No block is started twice without being completed in between, every delta and every complete
names an open block, and at the end no block is open. -/
def Bracketed (envelopes : List RuntimeEnvelope) : Prop := watch bracketStep [] envelopes = some []

instance (envelopes : List RuntimeEnvelope) : Decidable (Bracketed envelopes) := by
  unfold Bracketed; infer_instance

/-! ### Conditions -/

variable (ingress : Ingress)

/-- The ingress state an operation works on, once the pulse is open. -/
def ProtocolIngressState.atPulse (p : ProtocolIngressState) : ProtocolIngressState :=
  if p.turnStarted then p else { turnStarted := true }

/-- The tool calls in the chunks take closed indices. -/
def ClearChunks (p : ProtocolIngressState) : List NormalisedChunk → Prop
  | [] => True
  | .text _ :: chunks => ClearChunks p chunks
  | .taggedToolCall .. :: chunks =>
    if p.hasNativeToolCalls then ClearChunks p chunks
    else p.nextTaggedToolBlockIndex ∉ p.openBlocks ∧
      ClearChunks { p with
        nextTaggedToolBlockIndex := saturatingSucc p.nextTaggedToolBlockIndex } chunks

instance decidableClearChunks (p : ProtocolIngressState) :
    (chunks : List NormalisedChunk) → Decidable (ClearChunks p chunks)
  | [] => isTrue trivial
  | .text _ :: chunks => decidableClearChunks p chunks
  | .taggedToolCall .. :: chunks =>
    have := decidableClearChunks p chunks
    have := decidableClearChunks { p with
      nextTaggedToolBlockIndex := saturatingSucc p.nextTaggedToolBlockIndex } chunks
    inferInstanceAs (Decidable (if p.hasNativeToolCalls then ClearChunks p chunks
      else p.nextTaggedToolBlockIndex ∉ p.openBlocks ∧
        ClearChunks { p with
          nextTaggedToolBlockIndex := saturatingSucc p.nextTaggedToolBlockIndex } chunks))

/-- The tool calls that the normaliser of the block finds in the text take closed indices. -/
def ClearText (p : ProtocolIngressState) (index : ℕ) (text : String) : Prop :=
  match ((find? index p.taggedTextNormalisers).getD {}).normalise ingress.codec text.toList with
  | none => True
  | some (chunks, _) => ClearChunks p chunks

instance (p : ProtocolIngressState) (index : ℕ) (text : String) :
    Decidable (ClearText ingress p index text) := by
  unfold ClearText; split <;> infer_instance

def openAt (p : ProtocolIngressState) (index : ℕ) : ProtocolIngressState :=
  { p with openBlocks := insertElem index p.openBlocks }

/-- A block is opened at a closed index, and the calls in its first text do not take it. -/
def ClearOpen (p : ProtocolIngressState) (index : ℕ) (contentBlock : ProviderContentBlock) : Prop :=
  match providerStreamBlock contentBlock with
  | none => True
  | some (_, initialDelta) =>
    index ∉ p.openBlocks ∧
      (needsTextNormaliser contentBlock = true →
        ClearText ingress (openAt p index) index (initialDelta.getD ""))

instance (p : ProtocolIngressState) (index : ℕ) (contentBlock : ProviderContentBlock) :
    Decidable (ClearOpen ingress p index contentBlock) := by
  unfold ClearOpen; split <;> infer_instance

/-- Arguments are for an open block. -/
def ClearDelta (p : ProtocolIngressState) (index : ℕ) : ProviderBlockDelta → Prop
  | .text text =>
    text = "" ∨ ClearText ingress (if index ∈ p.openBlocks then p else openAt p index) index text
  | .toolArguments arguments => arguments = "" ∨ index ∈ p.openBlocks

instance (p : ProtocolIngressState) (index : ℕ) (blockDelta : ProviderBlockDelta) :
    Decidable (ClearDelta ingress p index blockDelta) := by
  unfold ClearDelta; split <;> infer_instance

/-- A tool delta opens a closed index, or sends arguments to an open one. -/
def ClearToolDelta (p : ProtocolIngressState) (toolCall : ChatCompatToolCallDelta) : Prop :=
  let blockIndex := min (toolCall.index.getD 0) maxToolCallIndex + 1
  let state := (find? blockIndex p.chatCompatToolLifecycles).getD {}
  p.chatCompatStreamTerminated = true ∨ state.lifecycle = .closed ∨
    let merged := mergeToolDelta ingress.toHost toolCall state
    if (openingBlock blockIndex merged).isSome then blockIndex ∉ p.openBlocks
    else partialArguments (afterOpening merged) = none ∨ blockIndex ∈ p.openBlocks

instance (p : ProtocolIngressState) (toolCall : ChatCompatToolCallDelta) :
    Decidable (ClearToolDelta ingress p toolCall) := by
  unfold ClearToolDelta; infer_instance

def ClearOp (s : RuntimeEnvelopeNormalizer) : IngressOp → Prop
  | .openBlock index contentBlock =>
    ClearOpen ingress s.protocolIngress.atPulse index contentBlock
  | .delta index blockDelta => ClearDelta ingress s.protocolIngress.atPulse index blockDelta
  | .toolDelta toolCall => ClearToolDelta ingress s.protocolIngress toolCall
  | _ => True

instance (s : RuntimeEnvelopeNormalizer) (op : IngressOp) : Decidable (ClearOp ingress s op) := by
  unfold ClearOp; split <;> infer_instance

/-! ### State and monitor -/

/-- The normaliser has the ingress state `p`, and `opens` lists the open blocks of the stream. -/
structure At (p : ProtocolIngressState) (opens : List ℕ) (s : RuntimeEnvelopeNormalizer)
    (m : List ℕ) : Prop where
  state : s.protocolIngress = p
  noText : s.openFinalTextBlock = none
  opens : ∀ index, index ∈ m ↔ index ∈ opens

/-- What holds of the ingress state between operations. -/
structure WellOpened (p : ProtocolIngressState) : Prop where
  nodup : p.openBlocks.Nodup
  normalisers : ∀ index ∈ keys p.taggedTextNormalisers, index ∈ p.openBlocks
  idle : p.turnStarted = false → p.openBlocks = []

/-- The normaliser and the monitor agree on the open blocks. -/
def BlocksInv (s : RuntimeEnvelopeNormalizer) (m : List ℕ) : Prop :=
  ∃ p, At p p.openBlocks s m ∧ WellOpened p

namespace RuntimeEnvelopeNormalizer

variable (ingress : Ingress) (host : Host)

variable {s : RuntimeEnvelopeNormalizer} {p : ProtocolIngressState} {opens m : List ℕ} {index : ℕ}

theorem at_of_reports {signal : RuntimeSignal} {s' : RuntimeEnvelopeNormalizer}
    {out : List RuntimeEnvelope} (opens' : List ℕ) (hs : At p opens s m)
    (h : Reports signal s out s') (hstep : ∀ e : RuntimeEnvelope, e.signal = signal →
      ∃ m', bracketStep m e = some m' ∧ ∀ index, index ∈ m' ↔ index ∈ opens') :
    ∃ m', watch bracketStep m out = some m' ∧ At p opens' s' m' := by
  obtain ⟨⟨first, rest, rfl, hsig, hrest⟩, -, hin, hopen⟩ := h
  obtain ⟨m', hm', hopens⟩ := hstep first hsig
  refine ⟨m', ?_, hin.trans hs.state, hopen, hopens⟩
  simp only [watch, hm']
  refine watch_of_ignored fun e he => ?_
  have htool := hrest e he
  cases hes : e.signal <;> simp_all [bracketStep, isToolSignal]

theorem at_start {block : StreamBlock}
    (hu : reportedSignal (.streamBlockStart index block) = some (.transcriptBlockStart index block))
    (hindex : index ∉ opens) :
    Spec bracketStep (At p opens) (normalizeUiUpdate host (.streamBlockStart index block) none)
      fun _ => At p (index :: opens) :=
  Spec.of_run fun s m hs => by
    obtain ⟨out, s', hrun, hrep⟩ := reports_update host hu none hs.noText
    obtain ⟨m', hw, hat⟩ := at_of_reports (index :: opens) hs hrep fun e he => by
      have hm : index ∉ m := fun hm => hindex ((hs.opens index).mp hm)
      exact ⟨index :: m, by simp only [bracketStep, he, if_neg hm], fun i => by
        simp only [List.mem_cons, hs.opens i]⟩
    exact ⟨(), out, s', m', hrun, hw, hat⟩

theorem at_delta (delta : String) (hindex : index ∈ opens) :
    Spec bracketStep (At p opens) (normalizeUiUpdate host (.streamBlockDelta index delta) none)
      fun _ => At p opens :=
  Spec.of_run fun s m hs => by
    obtain ⟨out, s', hrun, hrep⟩ := reports_blockDelta host index delta none hs.noText
    obtain ⟨m', hw, hat⟩ := at_of_reports opens hs hrep fun e he => by
      have hm : index ∈ m := (hs.opens index).mpr hindex
      exact ⟨m, by simp only [bracketStep, he, if_pos hm], hs.opens⟩
    exact ⟨(), out, s', m', hrun, hw, hat⟩

theorem at_complete (hindex : index ∈ opens) :
    Spec bracketStep (At p opens) (normalizeUiUpdate host (.streamBlockComplete index) none)
      fun _ => At p (opens.filter (· ≠ index)) :=
  Spec.of_run fun s m hs => by
    obtain ⟨out, s', hrun, hrep⟩ := reports_blockComplete host index none hs.noText
    obtain ⟨m', hw, hat⟩ := at_of_reports (opens.filter (· ≠ index)) hs hrep
      fun e he => by
        have hm : index ∈ m := (hs.opens index).mpr hindex
        exact ⟨m.filter (· ≠ index), by simp only [bracketStep, he, if_pos hm], fun i => by
          simp only [List.mem_filter, hs.opens i]⟩
    exact ⟨(), out, s', m', hrun, hw, hat⟩

def isNeutral : RuntimeSignal → Bool
  | .transcriptBlockStart .. | .transcriptBlockDelta .. | .transcriptBlockComplete .. => false
  | _ => true

theorem at_neutral {signal : RuntimeSignal} (hsignal : isNeutral signal = true)
    (source : Option RuntimeEnvelopeSource) :
    Keeps bracketStep (At p opens) (do emit (← nextEnvelopeWithSource host signal none none source)) :=
  Spec.of_run fun s m hs => by
    obtain ⟨out, s', hrun, hrep⟩ := reports_emit host signal source hs.noText
    obtain ⟨m', hw, hat⟩ := at_of_reports opens hs hrep fun e he => by
      refine ⟨m, ?_, hs.opens⟩
      cases signal <;> simp_all [bracketStep, isNeutral]
    exact ⟨(), out, s', m', hrun, hw, hat⟩

theorem at_modifyIngress (f : ProtocolIngressState → ProtocolIngressState) :
    Spec bracketStep (At p opens) (modifyIngress f) fun _ => At (f p) opens :=
  Spec.modify fun _ _ hs => ⟨congrArg f hs.state, hs.noText, hs.opens⟩

theorem at_ensure (hp : p.turnStarted = false → p.openBlocks = []) :
    Spec bracketStep (At p p.openBlocks) (ensureProtocolIngressTurnStarted ingress)
      fun out s m => ∃ m', watch bracketStep m out = some m' ∧ At p.atPulse p.atPulse.openBlocks s m' := by
  refine Spec.of_run fun s m hs => ?_
  have hstate := hs.state
  cases hstarted : p.turnStarted with
  | true =>
    refine ⟨[], [], s, m, ?_, rfl, m, rfl, ?_⟩
    · simp only [ensureProtocolIngressTurnStarted, bind_of_some (read_run s), prepend_nil,
        hstate, hstarted, if_true, pure_run]
    · rw [ProtocolIngressState.atPulse, if_pos hstarted]
      exact hs
  | false =>
    obtain ⟨e, s', hrun, hsig, hin, hopen⟩ :
        ∃ e s', ensureProtocolIngressTurnStarted ingress s = some ([e], [], s') ∧
          e.signal = .pulseStart none ∧ s'.protocolIngress = { turnStarted := true } ∧
          s'.openFinalTextBlock = none := by
      simp only [ensureProtocolIngressTurnStarted, bind_of_some (read_run s), prepend_nil, hstate, hstarted]
      exact ⟨_, _, rfl, rfl, rfl, rfl⟩
    refine ⟨[e], [], s', m, hrun, rfl, m, by simp [watch, bracketStep, hsig], ?_⟩
    have hm : ∀ index, index ∉ m := fun index hm => by
      have := (hs.opens index).mp hm
      rw [hp hstarted] at this
      cases this
    have hpulse : p.atPulse = { turnStarted := true } := by
      rw [ProtocolIngressState.atPulse, hstarted]; rfl
    exact ⟨hin.trans hpulse.symm, hopen, fun index => by simp [hpulse, hm index]⟩

/-! ### Tagged tool calls -/

theorem filter_insertElem (h : index ∉ opens) : (insertElem index opens).filter (· ≠ index) = opens := by
  induction opens with
  | nil => simp [insertElem]
  | cons a opens ih =>
    obtain ⟨hne, hni⟩ := not_or.mp fun hm => h (List.mem_cons.mpr hm)
    have hself : opens.filter (· ≠ index) = opens :=
      List.filter_eq_self.mpr fun i hi => by
        simp only [decide_eq_true_eq]
        rintro rfl
        exact hni hi
    have ha : decide (a ≠ index) = true := decide_eq_true (Ne.symm hne)
    simp only [insertElem, if_neg hne]
    split
    · simp only [List.filter_cons, ne_eq, not_true, decide_false, ha, hself, if_true]
      rfl
    · simp only [List.filter_cons, ha, ih hni, if_true]

theorem erase_of_notMem {β : Type} {entries : List (ℕ × β)} (h : index ∉ keys entries) :
    erase index entries = entries :=
  List.filter_eq_self.mpr fun entry hentry => by
    simp only [decide_eq_true_eq]
    rintro rfl
    exact h (List.mem_map.mpr ⟨entry, hentry, rfl⟩)

theorem At.congr {opens' : List ℕ} (h : ∀ index, index ∈ opens ↔ index ∈ opens')
    (s : RuntimeEnvelopeNormalizer) (m : List ℕ) (hs : At p opens s m) : At p opens' s m :=
  ⟨hs.state, hs.noText, fun index => (hs.opens index).trans (h index)⟩

theorem at_emitText (hindex : index ∈ opens) (text : List Char) :
    Keeps bracketStep (At p opens) (emitNormalisedProviderChunks ingress index (pushTextChunk text)) := by
  refine Spec.forEach fun chunk hchunk => ?_
  unfold pushTextChunk at hchunk
  split at hchunk
  · cases hchunk
  · obtain rfl := List.mem_singleton.mp hchunk
    exact at_delta ingress.toHost _ hindex

def closeAt (p : ProtocolIngressState) (index : ℕ) : ProtocolIngressState :=
  { p with
    openBlocks := p.openBlocks.filter (· ≠ index)
    taggedTextNormalisers := erase index p.taggedTextNormalisers }

theorem at_closeProviderStreamBlock (hindex : index ∈ p.openBlocks) :
    Spec bracketStep (At p p.openBlocks) (closeProviderStreamBlock ingress index)
      fun _ => At (closeAt p index) (closeAt p index).openBlocks := by
  refine Spec.read_of (fun _ _ hs => hs.state) fun s hs => ?_
  rw [hs, if_pos hindex]
  refine Spec.bind (at_modifyIngress _) fun _ => ?_
  refine Spec.bind (Spec.forSome fun normaliser _ => at_emitText ingress hindex _) fun _ => ?_
  exact at_complete ingress.toHost hindex

theorem at_closeProviderStreamBlock_closed (hindex : index ∉ p.openBlocks) :
    Keeps bracketStep (At p opens) (closeProviderStreamBlock ingress index) := by
  refine Spec.read_of (fun _ _ hs => hs.state) fun s hs => ?_
  rw [hs, if_neg hindex]
  exact Spec.pure fun _ _ hs => hs

theorem at_openTool {contentBlock : ProviderContentBlock} {id name : String} {input : Value}
    (hblock : providerStreamBlock contentBlock = some (.toolCall id name input .pending, none))
    (hp : p.turnStarted = false → p.openBlocks = []) (hindex : index ∉ p.atPulse.openBlocks) :
    Spec bracketStep (At p p.openBlocks) (openProviderStreamBlock ingress index contentBlock)
      fun _ => At (openAt p.atPulse index) (openAt p.atPulse index).openBlocks := by
  have hneeds : needsTextNormaliser contentBlock = false := by
    cases contentBlock <;> cases hblock <;> rfl
  simp only [openProviderStreamBlock, openProviderStreamBlockWith, hblock, hneeds]
  refine Spec.bind (at_ensure ingress hp) fun _ => Spec.bind Spec.emitAll fun _ => ?_
  refine Spec.bind (at_modifyIngress _) fun _ => ?_
  refine Spec.bind (Spec.onlyIf fun h => absurd h Bool.noConfusion) fun _ => ?_
  refine Spec.bind ((at_start ingress.toHost rfl hindex).conseq (fun _ _ hs => hs)
    fun _ s m hs => At.congr (fun i => ?_) s m hs) fun _ => Spec.pure fun _ _ hs => hs
  rw [openAt, mem_insertElem, List.mem_cons]

theorem at_emitTaggedToolCallFromText (hp : p.turnStarted = true)
    (hnorm : ∀ index ∈ keys p.taggedTextNormalisers, index ∈ p.openBlocks) (name : String) (input : Value)
    (hnative : p.hasNativeToolCalls = false) (hindex : p.nextTaggedToolBlockIndex ∉ p.openBlocks) :
    Spec bracketStep (At p p.openBlocks) (emitTaggedToolCallFromText ingress name input)
      fun _ => At { p with
        nextTaggedToolBlockIndex := saturatingSucc p.nextTaggedToolBlockIndex } p.openBlocks := by
  obtain ⟨index, hi⟩ : ∃ index, p.nextTaggedToolBlockIndex = index := ⟨_, rfl⟩
  obtain ⟨q, hq⟩ : ∃ q, { p with
    nextTaggedToolBlockIndex := saturatingSucc p.nextTaggedToolBlockIndex } = q := ⟨_, rfl⟩
  have hqopen : q.openBlocks = p.openBlocks := by rw [← hq]
  have hqstarted : q.turnStarted = true := by rw [← hq]; exact hp
  have hqpulse : q.atPulse = q := by rw [ProtocolIngressState.atPulse, if_pos hqstarted]
  have hopen : index ∉ q.openBlocks := by rw [hqopen, ← hi]; exact hindex
  have hclosed : closeAt (openAt q index) index = q := by
    have hkey : index ∉ keys q.taggedTextNormalisers := fun hk => by
      rw [← hq] at hk
      exact hindex (by rw [hi]; exact hnorm index hk)
    simp only [closeAt, openAt, filter_insertElem hopen, erase_of_notMem hkey]
  rw [hq, ← hqopen]
  refine Spec.read_of (fun _ _ hs => hs.state) fun s hs => ?_
  rw [hs, hnative, hi]
  refine Spec.bind (R := fun _ => At q q.openBlocks) ?_ fun _ => ?_
  · rw [← hq]
    exact at_modifyIngress _
  refine Spec.bind (at_openTool ingress rfl (fun h => absurd (hqstarted.symm.trans h)
    Bool.noConfusion) (by rw [hqpulse]; exact hopen)) fun _ => ?_
  rw [hqpulse]
  have hself : index ∈ (openAt q index).openBlocks := mem_insertElem.mpr (Or.inl rfl)
  have hspec := at_closeProviderStreamBlock ingress hself
  rwa [hclosed] at hspec

/-! ### Text -/

/-- Without counting tagged calls, the ingress state is `p`. -/
def AtUpToCount (p : ProtocolIngressState) (s : RuntimeEnvelopeNormalizer) (m : List ℕ) : Prop :=
  ∃ count, At { p with nextTaggedToolBlockIndex := count } p.openBlocks s m

theorem at_chunks (hp : p.turnStarted = true)
    (hnorm : ∀ index ∈ keys p.taggedTextNormalisers, index ∈ p.openBlocks)
    (hindex : index ∈ p.openBlocks) (chunks : List NormalisedChunk) (hclear : ClearChunks p chunks) :
    Spec bracketStep (At p p.openBlocks) (emitNormalisedProviderChunks ingress index chunks)
      fun _ => AtUpToCount p := by
  rw [emitNormalisedProviderChunks_eq]
  induction chunks generalizing p with
  | nil => exact Spec.pure fun _ _ hs => ⟨_, hs⟩
  | cons chunk chunks ih =>
    cases chunk with
    | text text =>
      exact Spec.bind (at_delta ingress.toHost _ hindex) fun _ => ih hp hnorm hindex hclear
    | taggedToolCall name input =>
      rw [ClearChunks] at hclear
      cases hnative : p.hasNativeToolCalls with
      | true =>
        rw [if_pos hnative] at hclear
        refine Spec.bind (R := fun _ => At p p.openBlocks) ?_ fun _ => ih hp hnorm hindex hclear
        refine Spec.read_of (fun _ _ hs => hs.state) fun s hs => ?_
        rw [hs, hnative]
        exact Spec.pure fun _ _ hs => hs
      | false =>
        rw [if_neg (by simp [hnative])] at hclear
        refine Spec.bind
          (at_emitTaggedToolCallFromText ingress hp hnorm name input hnative hclear.1) fun _ => ?_
        exact ih (p := { p with
          nextTaggedToolBlockIndex := saturatingSucc p.nextTaggedToolBlockIndex })
          hp hnorm hindex hclear.2

theorem clearChunks_congr {q : ProtocolIngressState} (hopen : p.openBlocks = q.openBlocks)
    (hcount : p.nextTaggedToolBlockIndex = q.nextTaggedToolBlockIndex)
    (hnative : p.hasNativeToolCalls = q.hasNativeToolCalls) (chunks : List NormalisedChunk)
    (h : ClearChunks p chunks) : ClearChunks q chunks := by
  induction chunks generalizing p q with
  | nil => trivial
  | cons chunk chunks ih =>
    cases chunk with
    | text text => exact ih hopen hcount hnative h
    | taggedToolCall name input =>
      rw [ClearChunks] at h ⊢
      by_cases hq : q.hasNativeToolCalls = true
      · rw [if_pos hq]
        rw [if_pos (hnative.trans hq)] at h
        exact ih hopen hcount hnative h
      · rw [if_neg hq]
        rw [if_neg (hnative ▸ hq)] at h
        refine ⟨hopen ▸ hcount ▸ h.1, ?_⟩
        refine ih ?_ ?_ ?_ h.2
        · exact hopen
        · exact congrArg saturatingSucc hcount
        · exact hnative

theorem blocksInv_of_count (hp : WellOpened p) (hs : AtUpToCount p s m) : BlocksInv s m := by
  obtain ⟨count, hs⟩ := hs
  exact ⟨_, hs, hp.nodup, hp.normalisers, hp.idle⟩

theorem blocksInv_applyNormalisedProviderText {delta : String} (hp : p.turnStarted = true)
    (hwell : WellOpened p) (hindex : index ∈ p.openBlocks) (hclear : ClearText ingress p index delta) :
    Spec bracketStep (At p p.openBlocks) (applyNormalisedProviderText ingress index delta)
      fun _ => BlocksInv := by
  refine Spec.read_of (fun _ _ hs => hs.state) fun s hs => ?_
  rw [hs]
  unfold ClearText at hclear
  dsimp only
  split
  · exact Spec.crash
  rename_i chunks normaliser hrun
  rw [hrun] at hclear
  have hnorm : ∀ i ∈ keys (insertSorted index normaliser p.taggedTextNormalisers),
      i ∈ p.openBlocks := fun i hi => by
    rcases mem_keys_insertSorted.mp hi with rfl | hi
    · exact hindex
    · exact hwell.normalisers i hi
  refine Spec.bind (at_modifyIngress _) fun _ => ?_
  have hchunks : ClearChunks { p with
      taggedTextNormalisers := insertSorted index normaliser p.taggedTextNormalisers } chunks := by
    refine clearChunks_congr ?_ ?_ ?_ chunks hclear <;> rfl
  refine Spec.conseq (at_chunks ingress (p := { p with
      taggedTextNormalisers := insertSorted index normaliser p.taggedTextNormalisers })
    hp hnorm hindex chunks hchunks) (fun _ _ hs => hs) fun _ s m hs => ?_
  exact blocksInv_of_count (p := { p with
    taggedTextNormalisers := insertSorted index normaliser p.taggedTextNormalisers })
    ⟨hwell.nodup, hnorm, hwell.idle⟩ hs

/-! ### Operations -/

theorem wellOpened_atPulse (hp : WellOpened p) : WellOpened p.atPulse ∧ p.atPulse.turnStarted = true := by
  unfold ProtocolIngressState.atPulse
  split
  · rename_i hstarted
    exact ⟨hp, hstarted⟩
  · exact ⟨⟨List.nodup_nil, by simp [keys], fun _ => rfl⟩, rfl⟩

theorem wellOpened_openAt (hp : WellOpened p) (hstarted : p.turnStarted = true)
    (hindex : index ∉ p.openBlocks) : WellOpened (openAt p index) :=
  ⟨nodup_insertElem hp.nodup hindex,
    fun i hi => mem_insertElem.mpr (Or.inr (hp.normalisers i hi)),
    fun h => absurd (hstarted.symm.trans h) Bool.noConfusion⟩

theorem blocksInv_of_at (hp : WellOpened p) (hs : At p p.openBlocks s m) : BlocksInv s m :=
  ⟨p, hs, hp⟩

theorem blocksInv_openProviderStreamBlock (hp : WellOpened p) {contentBlock : ProviderContentBlock}
    (hclear : ClearOpen ingress p.atPulse index contentBlock) :
    Spec bracketStep (At p p.openBlocks) (openProviderStreamBlock ingress index contentBlock)
      fun _ => BlocksInv := by
  obtain ⟨hwell, hstarted⟩ := wellOpened_atPulse hp
  unfold ClearOpen at hclear
  simp only [openProviderStreamBlock, openProviderStreamBlockWith]
  split
  · exact Spec.pure fun _ _ hs => blocksInv_of_at hp hs
  rename_i block initialDelta hblock
  simp only [hblock] at hclear
  obtain ⟨hindex, htext⟩ := hclear
  have hopened := wellOpened_openAt hwell hstarted hindex
  have hself : index ∈ (openAt p.atPulse index).openBlocks := mem_insertElem.mpr (Or.inl rfl)
  have hreport : reportedSignal (.streamBlockStart index block) =
      some (.transcriptBlockStart index block) := by
    cases contentBlock <;> cases hblock <;> rfl
  have hstart : ∀ q : ProtocolIngressState,
      Spec bracketStep (At q p.atPulse.openBlocks)
        (normalizeUiUpdate ingress.toHost (.streamBlockStart index block) none)
        fun _ => At q (openAt p.atPulse index).openBlocks := fun q =>
    (at_start ingress.toHost hreport hindex).conseq (fun _ _ hs => hs)
      (fun _ s m hs => At.congr (fun i => by rw [openAt, mem_insertElem, List.mem_cons]) s m hs)
  refine Spec.bind (at_ensure ingress hp.idle) fun _ => Spec.bind Spec.emitAll fun _ => ?_
  refine Spec.bind (at_modifyIngress _) fun _ => ?_
  cases hneeds : needsTextNormaliser contentBlock with
  | false =>
    have hinitial : initialDelta = none := by
      cases contentBlock <;> cases hneeds <;> cases hblock <;> rfl
    rw [hinitial]
    refine Spec.bind (Spec.onlyIf fun h => absurd h Bool.noConfusion) fun _ => ?_
    exact Spec.bind (hstart _) fun _ => Spec.pure fun _ _ hs => blocksInv_of_at hopened hs
  | true =>
    obtain ⟨q, hq⟩ : ∃ q, { openAt p.atPulse index with
      taggedTextNormalisers := insertSorted index
        ((find? index p.atPulse.taggedTextNormalisers).getD {})
        p.atPulse.taggedTextNormalisers } = q := ⟨_, rfl⟩
    have hqwell : WellOpened q := by
      rw [← hq]
      refine ⟨hopened.nodup, fun i hi => ?_, hopened.idle⟩
      rcases mem_keys_insertSorted.mp hi with rfl | hi
      · exact hself
      · exact hopened.normalisers i hi
    refine Spec.bind (R := fun _ => At q p.atPulse.openBlocks) ?_ fun _ => ?_
    · rw [← hq, onlyIf, if_pos rfl]
      exact at_modifyIngress _
    have hqopen : q.openBlocks = (openAt p.atPulse index).openBlocks := by rw [← hq]
    refine Spec.bind (hstart q) fun _ => ?_
    rw [← hqopen]
    cases hdelta : nonemptyStr initialDelta with
    | none => exact Spec.pure fun _ _ hs => blocksInv_of_at hqwell hs
    | some delta =>
      obtain rfl : initialDelta = some delta := (Option.filter_eq_some_iff.mp hdelta).1
      refine blocksInv_applyNormalisedProviderText ingress (by rw [← hq]; exact hstarted) hqwell
        (hqopen ▸ hself) ?_
      have hclear := htext hneeds
      unfold ClearText at hclear ⊢
      rw [← hq]
      simp only [find?_insertSorted, if_true, Option.getD_some]
      split
      · trivial
      · rename_i chunks _ hrun
        rw [Option.getD_some, show (openAt p.atPulse index).taggedTextNormalisers =
          p.atPulse.taggedTextNormalisers from rfl, hrun] at hclear
        refine clearChunks_congr ?_ ?_ ?_ chunks hclear <;> rfl

theorem blocksInv_applyProviderStreamDelta (hp : WellOpened p) {blockDelta : ProviderBlockDelta}
    (hclear : ClearDelta ingress p.atPulse index blockDelta) :
    Spec bracketStep (At p p.openBlocks) (applyProviderStreamDelta ingress index blockDelta)
      fun _ => BlocksInv := by
  obtain ⟨hwell, hstarted⟩ := wellOpened_atPulse hp
  cases blockDelta with
  | text delta =>
    simp only [applyProviderStreamDelta]
    split
    · exact Spec.pure fun _ _ hs => blocksInv_of_at hp hs
    rename_i hne
    have htext := hclear.resolve_left hne
    refine Spec.bind (at_ensure ingress hp.idle) fun _ => Spec.bind Spec.emitAll fun _ => ?_
    by_cases hindex : index ∈ p.atPulse.openBlocks
    · rw [if_pos hindex] at htext
      refine Spec.bind (R := fun _ => At p.atPulse p.atPulse.openBlocks) ?_ fun _ =>
        blocksInv_applyNormalisedProviderText ingress hstarted hwell hindex htext
      refine Spec.read_of (fun _ _ hs => hs.state) fun s hs => ?_
      rw [hs, if_pos hindex]
      exact Spec.pure fun _ _ hs => hs
    · rw [if_neg hindex] at htext
      refine Spec.bind (R := fun _ => At (openAt p.atPulse index)
        (openAt p.atPulse index).openBlocks) ?_ fun _ =>
        blocksInv_applyNormalisedProviderText ingress hstarted
          (wellOpened_openAt hwell hstarted hindex) (mem_insertElem.mpr (Or.inl rfl)) htext
      refine Spec.read_of (fun _ _ hs => hs.state) fun s hs => ?_
      rw [hs, if_neg hindex]
      refine Spec.bind (at_modifyIngress _) fun _ => ?_
      exact (at_start ingress.toHost rfl hindex).conseq (fun _ _ hs => hs) fun _ s m hs =>
        At.congr (fun i => by rw [openAt, mem_insertElem, List.mem_cons]) s m hs
  | toolArguments delta =>
    simp only [applyProviderStreamDelta]
    split
    · exact Spec.pure fun _ _ hs => blocksInv_of_at hp hs
    rename_i hne
    have hindex := hclear.resolve_left hne
    refine Spec.bind (at_ensure ingress hp.idle) fun _ => Spec.bind Spec.emitAll fun _ => ?_
    exact (at_delta ingress.toHost delta hindex).conseq (fun _ _ hs => hs)
      fun _ _ _ hs => blocksInv_of_at hwell hs

theorem blocksInv_closeProviderStreamBlock (index : ℕ) :
    Keeps bracketStep BlocksInv (closeProviderStreamBlock ingress index) := by
  refine Spec.exists fun p => ?_
  intro s m a out s' hs hrun
  obtain ⟨hat, hp⟩ := hs
  by_cases hindex : index ∈ p.openBlocks
  · obtain ⟨m', hw, hat'⟩ := at_closeProviderStreamBlock ingress hindex s m a out s' hat hrun
    refine ⟨m', hw, _, hat', hp.nodup.filter _, fun i hi => ?_, fun h => ?_⟩
    · obtain ⟨hne, hi⟩ := mem_keys_erase.mp hi
      exact List.mem_filter.mpr ⟨hp.normalisers i hi, decide_eq_true hne⟩
    · rw [hp.idle h] at hindex
      cases hindex
  · obtain ⟨m', hw, hat'⟩ := at_closeProviderStreamBlock_closed ingress hindex s m a out s' hat hrun
    exact ⟨m', hw, p, hat', hp⟩

end RuntimeEnvelopeNormalizer

end Vexcoder.Handoff

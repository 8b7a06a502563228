import Vexcoder.Handoff.Blocks
import Vexcoder.Handoff.CallAssembly
import Vexcoder.Lib.Runs

/-!
# A stream of chat-compat tool calls

A run of tool deltas, in any interleaving of their indices, is for each index the run of its own call
(`streaming_run`), as long as the pulse is open.  Opening the pulse resets the ingress state, and with it
the call whose block is being opened (`opening_forgets`).
-/

namespace Vexcoder.Handoff

open Base Lib Lib.Assoc Lib.Emitter Vexcoder.Runtime
open Vexcoder.Stream BlockEvent ProtocolIngressState

/-! ### The events of a block among the envelopes -/

def eventOf (index : ℕ) : RuntimeSignal → Option BlockEvent
  | .transcriptBlockStart i block => if i = index then some (.start block) else none
  | .transcriptBlockDelta i text => if i = index then some (.delta text) else none
  | .transcriptBlockComplete i => if i = index then some .complete else none
  | _ => none

/-- What the envelopes say of one block. -/
def blockEvents (index : ℕ) (out : List RuntimeEnvelope) : List BlockEvent :=
  out.filterMap fun envelope => eventOf index envelope.signal

theorem blockEvents_append (index : ℕ) (a b : List RuntimeEnvelope) :
    blockEvents index (a ++ b) = blockEvents index a ++ blockEvents index b :=
  List.filterMap_append

theorem blockEvents_of_reports {signal : RuntimeSignal} {s s' : RuntimeEnvelopeNormalizer}
    {out : List RuntimeEnvelope} (h : Reports signal s out s') (index : ℕ) :
    blockEvents index out = (eventOf index signal).toList := by
  obtain ⟨⟨first, rest, rfl, hsig, hrest⟩, -, -, -⟩ := h
  have hnone : blockEvents index rest = [] := by
    refine List.filterMap_eq_nil_iff.mpr fun envelope henvelope => ?_
    have htool := hrest envelope henvelope
    cases hes : envelope.signal <;> rw [hes] at htool <;> first | rfl | cases htool
  show blockEvents index ([first] ++ rest) = _
  rw [blockEvents_append, hnone, List.append_nil]
  show List.filterMap _ [first] = _
  rw [List.filterMap_cons, hsig]
  cases eventOf index signal <;> rfl

/-! ### Runs by their ingress state -/

/-- The state has this ingress state, and no final text block is open. -/
def IngressIs (p : ProtocolIngressState) (s : RuntimeEnvelopeNormalizer) : Prop :=
  s.protocolIngress = p ∧ s.openFinalTextBlock = none

/-- From the ingress state `p` the computation leads to `p'`, and these are the events of each block. -/
def Steps (p : ProtocolIngressState) (x : Emit Unit) (events : ℕ → List BlockEvent)
    (p' : ProtocolIngressState) : Prop :=
  Yields (IngressIs p) x fun _ out s' =>
    IngressIs p' s' ∧ ∀ index, blockEvents index out = events index

def only (index : ℕ) (events : List BlockEvent) (i : ℕ) : List BlockEvent :=
  if i = index then events else []

@[simp] theorem only_self (index : ℕ) (events : List BlockEvent) : only index events index = events :=
  if_pos rfl

theorem only_nil (index : ℕ) : only index [] = fun _ => [] := by
  funext i
  unfold only
  split <;> rfl

theorem only_append (index : ℕ) (a b : List BlockEvent) :
    (fun i => only index a i ++ only index b i) = only index (a ++ b) := by
  funext i
  unfold only
  split <;> rfl

namespace RuntimeEnvelopeNormalizer

variable (ingress : Ingress)

section Steps

variable {p p' p'' : ProtocolIngressState} {x y : Emit Unit} {events events' : ℕ → List BlockEvent}

theorem steps_pure : Steps p (pure ()) (fun _ => []) p :=
  Yields.pure fun _ h => ⟨h, fun _ => rfl⟩

theorem steps_bind (hx : Steps p x events p') (hy : Steps p' y events' p'') :
    Steps p (x >>= fun _ => y) (fun i => events i ++ events' i) p'' := by
  intro s hs
  obtain ⟨_, out, s', hrun, hs', hout⟩ := hx s hs
  obtain ⟨_, out', s'', hrun', hs'', hout'⟩ := hy s' hs'
  refine ⟨(), out ++ out', s'', ?_, hs'', fun index => ?_⟩
  · rw [bind_of_some hrun, hrun', prepend_some]
  · rw [blockEvents_append, hout, hout']

theorem steps_behind (hx : Steps p x (fun _ => []) p') (hy : Steps p' y events p'') :
    Steps p (x >>= fun _ => y) events p'' :=
  steps_bind hx hy

theorem steps_read {f : RuntimeEnvelopeNormalizer → Emit Unit}
    (h : ∀ s, s.protocolIngress = p → Steps p (f s) events p') :
    Steps p (Emitter.read >>= f) events p' :=
  Yields.read (fun _ hs => hs.1) h

theorem steps_modifyIngress (f : ProtocolIngressState → ProtocolIngressState) :
    Steps p (modifyIngress f) (fun _ => []) (f p) :=
  Yields.modify fun _ hs => ⟨⟨congrArg f hs.1, hs.2⟩, fun _ => rfl⟩

theorem steps_update (update : UiUpdate) {signal : RuntimeSignal} (hu : reportedSignal update = some signal) :
    Steps p (normalizeUiUpdate ingress.toHost update none) (fun i => (eventOf i signal).toList) p := by
  intro s hs
  obtain ⟨out, s', hrun, hrep⟩ := reports_update ingress.toHost hu none hs.2
  exact ⟨(), out, s', hrun, ⟨hrep.ingress.trans hs.1, hrep.noText⟩, blockEvents_of_reports hrep⟩

theorem steps_ensure (hy : Steps p.atPulse y events p') :
    Steps p (ensureProtocolIngressTurnStarted ingress >>= fun out => emitAll out >>= fun _ => y)
      events p' := by
  intro s hs
  cases hstarted : p.turnStarted with
  | true =>
    have hrun : ensureProtocolIngressTurnStarted ingress s = some ([], [], s) := by
      simp only [ensureProtocolIngressTurnStarted, bind_of_some (read_run s), prepend_nil, hs.1,
        hstarted, if_true, pure_run]
    rw [atPulse, if_pos hstarted] at hy
    obtain ⟨_, out, s', hrun', hs', hout⟩ := hy s hs
    refine ⟨(), out, s', ?_, hs', hout⟩
    rw [bind_of_some hrun, bind_of_some (emitAll_run [] s), hrun']
    rfl
  | false =>
    obtain ⟨e, s₁, hrun, hsig, hin, hopen⟩ :
        ∃ e s₁, ensureProtocolIngressTurnStarted ingress s = some ([e], [], s₁) ∧
          e.signal = .pulseStart none ∧ s₁.protocolIngress = { turnStarted := true } ∧
          s₁.openFinalTextBlock = none := by
      simp only [ensureProtocolIngressTurnStarted, bind_of_some (read_run s), prepend_nil, hs.1, hstarted]
      exact ⟨_, _, rfl, rfl, rfl, rfl⟩
    have hpulse : p.atPulse = { turnStarted := true } := by
      rw [atPulse, hstarted]
      rfl
    obtain ⟨_, out, s', hrun', hs', hout⟩ := hy s₁ ⟨hin.trans hpulse.symm, hopen⟩
    refine ⟨(), [e] ++ out, s', ?_, hs', fun index => ?_⟩
    · rw [bind_of_some hrun, bind_of_some (emitAll_run [e] s₁), hrun']
      rfl
    · rw [blockEvents_append, hout]
      show List.filterMap _ [e] ++ _ = _
      rw [List.filterMap_cons, hsig]
      rfl

end Steps

/-! ### Opening, sending and closing -/

theorem eventOf_only {index : ℕ} {signal : RuntimeSignal} {event : BlockEvent}
    (h : ∀ i, eventOf i signal = if index = i then some event else none) :
    (fun i => (eventOf i signal).toList) = only index [event] := by
  funext i
  rw [h, only]
  by_cases hi : index = i
  · rw [if_pos hi, if_pos hi.symm]
    rfl
  · rw [if_neg hi, if_neg (Ne.symm hi)]
    rfl

variable {p : ProtocolIngressState} {toolCall : ChatCompatToolCallDelta} {state : PendingChatCompatToolState}
  {s : RuntimeEnvelopeNormalizer} {deltas : List ChatCompatToolCallDelta}

theorem steps_openTool (index : ℕ) (id name : String) (input : Value) :
    Steps p (openProviderStreamBlock ingress index (.toolUse id name input))
      (only index [.start (.toolCall id name input .pending)]) (openAt p.atPulse index) := by
  have hstart := steps_update ingress (p := openAt p.atPulse index)
    (.streamBlockStart index (.toolCall id name input .pending)) rfl
  rw [eventOf_only fun _ => rfl] at hstart
  refine steps_ensure ingress ?_
  refine steps_behind (steps_modifyIngress fun p => openAt p index) ?_
  refine steps_behind (steps_pure (p := openAt p.atPulse index)) ?_
  have hrest := steps_bind hstart (steps_pure (p := openAt p.atPulse index))
  simp only [List.append_nil] at hrest
  exact hrest

theorem steps_arguments (index : ℕ) {json : String} (h : json ≠ "") :
    Steps p (applyProviderStreamDelta ingress index (.toolArguments json))
      (only index [.delta json]) p.atPulse := by
  have hdelta := steps_update ingress (p := p.atPulse) (.streamBlockDelta index json) rfl
  rw [eventOf_only fun _ => rfl] at hdelta
  rw [applyProviderStreamDelta, if_neg h]
  exact steps_ensure ingress hdelta

theorem steps_close (hplain : p.taggedTextNormalisers = []) (index : ℕ) :
    Steps p (closeProviderStreamBlock ingress index)
      (only index (if index ∈ p.openBlocks then [.complete] else []))
      { p with openBlocks := p.openBlocks.filter (· ≠ index) } := by
  refine steps_read fun s hs => ?_
  rw [hs]
  by_cases hopen : index ∈ p.openBlocks
  · have hcomplete := steps_update ingress
      (p := { p with openBlocks := p.openBlocks.filter (· ≠ index) })
      (.streamBlockComplete index) rfl
    rw [eventOf_only fun _ => rfl] at hcomplete
    have hnormaliser : find? index p.taggedTextNormalisers = none := by
      rw [hplain]
      rfl
    rw [if_pos hopen, if_pos hopen, hnormaliser]
    refine steps_behind ?_ (steps_behind steps_pure hcomplete)
    have hmodify := steps_modifyIngress (p := p) fun p => { p with
      openBlocks := p.openBlocks.filter (· ≠ index)
      taggedTextNormalisers := erase index p.taggedTextNormalisers }
    have herase : erase index p.taggedTextNormalisers = p.taggedTextNormalisers := by
      rw [hplain]
      rfl
    rwa [herase] at hmodify
  · have hself : p.openBlocks.filter (· ≠ index) = p.openBlocks := by
      refine List.filter_eq_self.mpr fun i hi => decide_eq_true ?_
      rintro rfl
      exact hopen hi
    rw [if_neg hopen, if_neg hopen, hself]
    rw [only_nil]
    exact steps_pure

/-! ### One delta -/

def callIndex (toolCall : ChatCompatToolCallDelta) : ℕ :=
  min (toolCall.index.getD 0) maxToolCallIndex

def callAt (calls : List (ℕ × PendingChatCompatToolState)) (blockIndex : ℕ) :
    PendingChatCompatToolState :=
  (find? blockIndex calls).getD {}

def withCall (p : ProtocolIngressState) (blockIndex : ℕ) (state : PendingChatCompatToolState) :
    ProtocolIngressState :=
  { p with chatCompatToolLifecycles := insertSorted blockIndex state p.chatCompatToolLifecycles }

def afterDelta (host : Host) (p : ProtocolIngressState) (toolCall : ChatCompatToolCallDelta) :
    ProtocolIngressState :=
  let blockIndex := callIndex toolCall + 1
  let state := callAt p.chatCompatToolLifecycles blockIndex
  if p.chatCompatStreamTerminated = true ∨ state.lifecycle = .closed then p
  else
    let merged := mergeToolDelta host toolCall state
    let p' := withCall p blockIndex (callStep host blockIndex toolCall state).2
    if (openingBlock blockIndex merged).isSome then
      openAt { p' with hasNativeToolCalls := true }.atPulse blockIndex
    else if (partialArguments (afterOpening merged)).isSome then p'.atPulse
    else p'

theorem afterDelta_ignored (host : Host) (h : p.chatCompatStreamTerminated = true ∨
      (callAt p.chatCompatToolLifecycles (callIndex toolCall + 1)).lifecycle = .closed) :
    afterDelta host p toolCall = p := if_pos h

theorem partialArguments_ne {json : String} (h : partialArguments state = some json) :
    json ≠ "" := by
  rw [partialArguments] at h
  split at h
  · rename_i hpending
    obtain rfl := Option.some.inj h
    intro hnil
    exact hpending.2 (by simpa using congrArg String.toList hnil)
  · cases h

theorem openingBlock_toolUse {blockIndex : ℕ} {contentBlock : ProviderContentBlock}
    (h : openingBlock blockIndex state = some contentBlock) :
    ∃ id name input, contentBlock = .toolUse id name input := by
  rw [openingBlock] at h
  split at h
  · exact ⟨_, _, _, (Option.some.inj h).symm⟩
  · cases h

theorem atPulse_openAt (p : ProtocolIngressState) (index : ℕ) :
    (openAt p.atPulse index).atPulse = openAt p.atPulse index := by
  have hstarted : (openAt p.atPulse index).turnStarted = true := by
    show p.atPulse.turnStarted = true
    rw [atPulse]
    split
    · assumption
    · rfl
  rw [atPulse, if_pos hstarted]

theorem steps_fragments (p : ProtocolIngressState) (index : ℕ) (state : PendingChatCompatToolState) :
    Steps p (forSome (partialArguments state) fun json =>
        applyProviderStreamDelta ingress index (.toolArguments json))
      (only index ((partialArguments state).toList.map .delta))
      (if (partialArguments state).isSome then p.atPulse else p) := by
  cases harguments : partialArguments state with
  | none =>
    rw [Option.toList_none, List.map_nil, only_nil]
    exact steps_pure
  | some json => exact steps_arguments ingress index (partialArguments_ne harguments)

/-- **One delta**: the events of its call, and the ingress state behind it. -/
theorem steps_delta (p : ProtocolIngressState) (toolCall : ChatCompatToolCallDelta) :
    Steps p (applyChatCompatToolDelta ingress toolCall)
      (only (callIndex toolCall + 1)
        (if p.chatCompatStreamTerminated = true then []
          else (callStep ingress.toHost (callIndex toolCall + 1) toolCall
            (callAt p.chatCompatToolLifecycles (callIndex toolCall + 1))).1))
      (afterDelta ingress.toHost p toolCall) := by
  refine steps_read fun s hs => ?_
  rw [hs]
  show Steps p (if p.chatCompatStreamTerminated = true then pure () else
    if (callAt p.chatCompatToolLifecycles (callIndex toolCall + 1)).lifecycle = .closed then pure ()
    else _) _ _
  by_cases hterminated : p.chatCompatStreamTerminated = true
  · rw [afterDelta_ignored _ (.inl hterminated), if_pos hterminated, if_pos hterminated, only_nil]
    exact steps_pure
  obtain ⟨state, hstate⟩ : ∃ state,
      callAt p.chatCompatToolLifecycles (callIndex toolCall + 1) = state := ⟨_, rfl⟩
  by_cases hclosed : state.lifecycle = .closed
  · rw [afterDelta_ignored _ (.inr (hstate ▸ hclosed)), if_neg hterminated, if_neg hterminated, hstate,
      if_pos hclosed, callStep, if_pos hclosed, only_nil]
    exact steps_pure
  rw [if_neg hterminated, if_neg hterminated, hstate, if_neg hclosed, afterDelta, hstate,
    if_neg (not_or.mpr ⟨hterminated, hclosed⟩), callStep_eq ingress.toHost _ _ hclosed]
  obtain ⟨merged, hmerged⟩ : ∃ merged, mergeToolDelta ingress.toHost toolCall state = merged :=
    ⟨_, rfl⟩
  obtain ⟨blockIndex, hindex⟩ : ∃ blockIndex, callIndex toolCall + 1 = blockIndex := ⟨_, rfl⟩
  have hbi : min (toolCall.index.getD 0) maxToolCallIndex + 1 = blockIndex := hindex
  have hfind : (find? blockIndex p.chatCompatToolLifecycles).getD {} = state := by
    rw [← hindex]
    exact hstate
  simp only [hindex, hbi, hfind, hmerged]
  refine steps_behind (steps_modifyIngress fun p =>
    withCall p blockIndex (afterPartial (afterOpening merged))) ?_
  cases hopening : openingBlock blockIndex merged with
  | none =>
    exact steps_behind steps_pure (steps_fragments ingress _ blockIndex (afterOpening merged))
  | some contentBlock =>
    obtain ⟨id, name, input, rfl⟩ := openingBlock_toolUse hopening
    have hopen := steps_behind
      (steps_modifyIngress (p := withCall p blockIndex (afterPartial (afterOpening merged)))
        fun p => { p with hasNativeToolCalls := true })
      (steps_openTool ingress blockIndex id name input)
    have hpartial := steps_fragments ingress
      (openAt { withCall p blockIndex (afterPartial (afterOpening merged)) with
        hasNativeToolCalls := true }.atPulse blockIndex) blockIndex (afterOpening merged)
    rw [atPulse_openAt, ite_self] at hpartial
    have hboth := steps_bind hopen hpartial
    rw [only_append] at hboth
    exact hboth

/-! ### Runs while the pulse is open -/

/-- What holds of the ingress state while the pulse is open and only tool deltas arrive. -/
structure Streaming (p : ProtocolIngressState) : Prop where
  started : p.turnStarted = true
  running : p.chatCompatStreamTerminated = false
  plain : p.taggedTextNormalisers = []
  sorted : Sorted p.chatCompatToolLifecycles
  opened : ∀ index, (callAt p.chatCompatToolLifecycles index).lifecycle = .opened →
    index ∈ p.openBlocks

theorem callAt_withCall (p : ProtocolIngressState) (index : ℕ) (state : PendingChatCompatToolState) (i : ℕ) :
    callAt (withCall p index state).chatCompatToolLifecycles i =
      if i = index then state else callAt p.chatCompatToolLifecycles i := by
  show (find? i (insertSorted index state p.chatCompatToolLifecycles)).getD {} = _
  rw [find?_insertSorted]
  split <;> rfl

theorem atPulse_started (h : p.turnStarted = true) : p.atPulse = p :=
  if_pos h

variable (host : Host)

theorem callStep_opens {blockIndex : ℕ} (hclosed : state.lifecycle ≠ .closed)
    (hopening : (openingBlock blockIndex (mergeToolDelta host toolCall state)).isSome = false)
    (hopened : (callStep host blockIndex toolCall state).2.lifecycle = .opened) :
    state.lifecycle = .opened := by
  have hdisc : ¬ ((mergeToolDelta host toolCall state).lifecycle = .discovered ∧
      (mergeToolDelta host toolCall state).name ≠ "") := by
    intro h
    rw [openingBlock, if_pos h] at hopening
    cases hopening
  rw [callStep_eq host _ _ hclosed, afterOpening, if_neg hdisc] at hopened
  have hlife : (afterPartial (mergeToolDelta host toolCall state)).lifecycle = state.lifecycle := by
    rw [afterPartial]
    split <;> simp only [mergeToolDelta_eq, collect_lifecycle] <;> rfl
  rw [← hlife]
  exact hopened

theorem afterDelta_started (hp : Streaming p)
    (hclosed : (callAt p.chatCompatToolLifecycles (callIndex toolCall + 1)).lifecycle ≠ .closed) :
    afterDelta host p toolCall =
      if (openingBlock (callIndex toolCall + 1) (mergeToolDelta host toolCall
          (callAt p.chatCompatToolLifecycles (callIndex toolCall + 1)))).isSome then
        openAt { withCall p (callIndex toolCall + 1) (callStep host (callIndex toolCall + 1) toolCall
            (callAt p.chatCompatToolLifecycles (callIndex toolCall + 1))).2 with
          hasNativeToolCalls := true } (callIndex toolCall + 1)
      else withCall p (callIndex toolCall + 1) (callStep host (callIndex toolCall + 1) toolCall
        (callAt p.chatCompatToolLifecycles (callIndex toolCall + 1))).2 := by
  have hno : ¬ (p.chatCompatStreamTerminated = true ∨
      (callAt p.chatCompatToolLifecycles (callIndex toolCall + 1)).lifecycle = .closed) := by
    rw [hp.running]
    exact not_or.mpr ⟨Bool.false_ne_true, hclosed⟩
  have hpulse : ∀ state, (withCall p (callIndex toolCall + 1) state).atPulse =
      withCall p (callIndex toolCall + 1) state := fun _ => atPulse_started hp.started
  have hpulse' : ∀ state, { withCall p (callIndex toolCall + 1) state with
      hasNativeToolCalls := true }.atPulse = { withCall p (callIndex toolCall + 1) state with
      hasNativeToolCalls := true } := fun _ => atPulse_started hp.started
  rw [afterDelta, if_neg hno]
  simp only [hpulse, hpulse', ite_self]

/-- **A delta while the pulse is open** changes its own call only. -/
theorem streaming_afterDelta (hp : Streaming p) (toolCall : ChatCompatToolCallDelta) :
    Streaming (afterDelta host p toolCall) ∧
      ∀ i, callAt (afterDelta host p toolCall).chatCompatToolLifecycles i =
        if i = callIndex toolCall + 1 then
          (callStep host i toolCall (callAt p.chatCompatToolLifecycles i)).2
        else callAt p.chatCompatToolLifecycles i := by
  obtain ⟨state, hstate⟩ : ∃ state,
      callAt p.chatCompatToolLifecycles (callIndex toolCall + 1) = state := ⟨_, rfl⟩
  by_cases hclosed : state.lifecycle = .closed
  · rw [afterDelta_ignored host (.inr (hstate ▸ hclosed))]
    refine ⟨hp, fun i => ?_⟩
    split
    · rename_i hi
      rw [hi, hstate, callStep, if_pos hclosed]
    · rfl
  · rw [← hstate] at hclosed
    have hcalls : ∀ i, callAt (withCall p (callIndex toolCall + 1) (callStep host
        (callIndex toolCall + 1) toolCall (callAt p.chatCompatToolLifecycles
          (callIndex toolCall + 1))).2).chatCompatToolLifecycles i =
        if i = callIndex toolCall + 1 then
          (callStep host i toolCall (callAt p.chatCompatToolLifecycles i)).2
        else callAt p.chatCompatToolLifecycles i := by
      intro i
      rw [callAt_withCall]
      split
      · rename_i hi
        rw [hi]
      · rfl
    have hsorted := sorted_insertSorted hp.sorted (callIndex toolCall + 1) (callStep host
      (callIndex toolCall + 1) toolCall (callAt p.chatCompatToolLifecycles (callIndex toolCall + 1))).2
    rw [afterDelta_started host hp hclosed]
    split
    · refine ⟨⟨hp.started, hp.running, hp.plain, hsorted, fun i hi => ?_⟩, hcalls⟩
      show i ∈ insertElem (callIndex toolCall + 1) p.openBlocks
      rw [mem_insertElem]
      by_cases hindex : i = callIndex toolCall + 1
      · exact .inl hindex
      refine .inr (hp.opened i ?_)
      have hcall := hcalls i
      rw [if_neg hindex] at hcall
      rw [← hcall]
      exact hi
    · rename_i hopening
      refine ⟨⟨hp.started, hp.running, hp.plain, hsorted, fun i hi => ?_⟩, hcalls⟩
      rw [hcalls i] at hi
      refine hp.opened i ?_
      by_cases hindex : i = callIndex toolCall + 1
      · rw [if_pos hindex] at hi
        subst hindex
        exact callStep_opens host hclosed (Bool.not_eq_true _ ▸ hopening) hi
      · rwa [if_neg hindex] at hi

def callDeltas (index : ℕ) (deltas : List ChatCompatToolCallDelta) : List ChatCompatToolCallDelta :=
  deltas.filter (callIndex · = index)

def afterDeltas (p : ProtocolIngressState) (deltas : List ChatCompatToolCallDelta) :
    ProtocolIngressState :=
  deltas.foldl (afterDelta host) p

/-- **A run while the pulse is open** is for each index the run of its call. -/
theorem streaming_run (hp : Streaming p) (deltas : List ChatCompatToolCallDelta) :
    ∃ events, Steps p (forEach deltas (applyChatCompatToolDelta ingress)) events
        (afterDeltas ingress.toHost p deltas) ∧
      Streaming (afterDeltas ingress.toHost p deltas) ∧
      ∀ i, callRun ingress.toHost (i + 1) (callDeltas i deltas) (callAt p.chatCompatToolLifecycles (i + 1)) =
        (events (i + 1), callAt (afterDeltas ingress.toHost p deltas).chatCompatToolLifecycles (i + 1)) := by
  induction deltas generalizing p with
  | nil => exact ⟨fun _ => [], steps_pure, hp, fun i => rfl⟩
  | cons toolCall deltas ih =>
    obtain ⟨hp', hcalls⟩ := streaming_afterDelta ingress.toHost hp toolCall
    obtain ⟨events, hsteps, hstreaming, hruns⟩ := ih hp'
    have hdelta := steps_delta ingress p toolCall
    rw [if_neg (by rw [hp.running]; exact Bool.false_ne_true)] at hdelta
    refine ⟨_, steps_bind hdelta hsteps, hstreaming, fun i => ?_⟩
    have hrun := hruns i
    rw [hcalls (i + 1)] at hrun
    by_cases hi : callIndex toolCall = i
    · have hfilter : callDeltas i (toolCall :: deltas) = toolCall :: callDeltas i deltas :=
        List.filter_cons_of_pos (by simpa using hi)
      subst hi
      rw [if_pos rfl] at hrun
      rw [hfilter, callRun, hrun, only_self]
      rfl
    · have hfilter : callDeltas i (toolCall :: deltas) = callDeltas i deltas :=
        List.filter_cons_of_neg (by simpa using hi)
      have hne : ¬ i + 1 = callIndex toolCall + 1 := fun h => hi (Nat.succ.inj h).symm
      rw [if_neg hne] at hrun
      rw [hfilter, hrun, only, if_neg hne]
      rfl

/-! ### The end of a stream -/

inductive StreamEnd where
  /-- A `finish_reason`. -/
  | finishReason
  /-- `[DONE]` -/
  | done

def endStream : StreamEnd → Emit Unit
  | .finishReason => closeChatCompatToolBlocks ingress
  | .done => normalizeChatCompatPayload ingress .done

theorem steps_closeAll (hplain : p.taggedTextNormalisers = []) (blocks : List ℕ) :
    ∃ p', Steps p (forEach blocks (closeProviderStreamBlock ingress))
        (fun i => if i ∈ blocks ∧ i ∈ p.openBlocks then [.complete] else []) p' ∧
      p'.turnStarted = p.turnStarted ∧
      p'.chatCompatStreamTerminated = p.chatCompatStreamTerminated ∧
      p'.taggedTextNormalisers = p.taggedTextNormalisers ∧
      p'.chatCompatToolLifecycles = p.chatCompatToolLifecycles := by
  induction blocks generalizing p with
  | nil =>
    refine ⟨p, ?_, rfl, rfl, rfl, rfl⟩
    have hevents : (fun i => if i ∈ ([] : List ℕ) ∧ i ∈ p.openBlocks then [complete] else [])
        = fun _ => [] := by
      funext i
      exact if_neg fun h => absurd h.1 List.not_mem_nil
    exact steps_pure
  | cons index blocks ih =>
    obtain ⟨p', hsteps, hstarted, hterminated, hnorm, hcalls⟩ :=
      ih (p := { p with openBlocks := p.openBlocks.filter (· ≠ index) }) hplain
    refine ⟨p', ?_, hstarted, hterminated, hnorm, hcalls⟩
    have hboth := steps_bind (steps_close ingress hplain index) hsteps
    have hevents : (fun i => only index (if index ∈ p.openBlocks then [complete] else []) i ++
        (if i ∈ blocks ∧ i ∈ p.openBlocks.filter (· ≠ index) then [complete] else [])) =
        fun i => if i ∈ index :: blocks ∧ i ∈ p.openBlocks then [complete] else [] := by
      funext i
      by_cases hi : i = index
      · subst hi
        simp [only]
      · simp [only, hi]
    rw [hevents] at hboth
    exact hboth

theorem callAt_closeAll (calls : List (ℕ × PendingChatCompatToolState)) (index : ℕ) :
    callAt (calls.map fun entry => (entry.1, closeLifecycle entry.2)) index =
      if index ∈ keys calls then closeLifecycle (callAt calls index) else {} := by
  induction calls with
  | nil => rfl
  | cons entry calls ih =>
    obtain ⟨k, state⟩ := entry
    by_cases hk : index = k
    · subst hk
      simp [callAt, find?, keys]
    · simp only [callAt, find?, List.map_cons, keys, List.mem_cons, hk, false_or] at ih ⊢
      exact ih

theorem mem_toClose {calls : List (ℕ × PendingChatCompatToolState)} (h : Sorted calls) (index : ℕ) :
    index ∈ (calls.filter fun entry => entry.2.lifecycle = .opened).map Prod.fst ↔
      (callAt calls index).lifecycle = .opened := by
  constructor
  · intro hmem
    obtain ⟨⟨k, state⟩, hentry, rfl⟩ := List.mem_map.mp hmem
    obtain ⟨hin, hopened⟩ := List.mem_filter.mp hentry
    rw [callAt, (find?_mem h).mpr hin]
    exact of_decide_eq_true hopened
  · intro hopened
    cases hfind : find? index calls with
    | none =>
      rw [callAt, hfind] at hopened
      cases hopened
    | some state =>
      rw [callAt, hfind] at hopened
      exact List.mem_map.mpr ⟨(index, state),
        List.mem_filter.mpr ⟨mem_of_find? hfind, decide_eq_true hopened⟩, rfl⟩

theorem mem_keys_of_opened {calls : List (ℕ × PendingChatCompatToolState)} {index : ℕ}
    (h : (callAt calls index).lifecycle = .opened) : index ∈ keys calls := by
  rw [mem_keys_iff_find?]
  cases hfind : find? index calls with
  | none =>
    rw [callAt, hfind] at h
    cases h
  | some state => rfl

def toClose (p : ProtocolIngressState) : List ℕ :=
  (p.chatCompatToolLifecycles.filter fun entry => entry.2.lifecycle = .opened).map Prod.fst

theorem steps_closeCalls (hplain : p.taggedTextNormalisers = []) :
    ∃ p', Steps p (closeChatCompatToolBlocks ingress)
        (fun i => if i ∈ toClose p ∧ i ∈ p.openBlocks then [.complete] else []) p' ∧
      p'.turnStarted = p.turnStarted ∧
      p'.chatCompatStreamTerminated = p.chatCompatStreamTerminated ∧
      p'.taggedTextNormalisers = p.taggedTextNormalisers ∧
      p'.chatCompatToolLifecycles =
        p.chatCompatToolLifecycles.map fun entry => (entry.1, closeLifecycle entry.2) := by
  obtain ⟨p', hsteps, hfields⟩ := steps_closeAll ingress
    (p := { p with chatCompatToolLifecycles :=
      p.chatCompatToolLifecycles.map fun entry => (entry.1, closeLifecycle entry.2) }) hplain (toClose p)
  refine ⟨p', steps_read fun s hs => ?_, hfields⟩
  rw [hs]
  exact steps_behind (steps_modifyIngress (p := p) fun p => { p with
    chatCompatToolLifecycles :=
      p.chatCompatToolLifecycles.map fun entry => (entry.1, closeLifecycle entry.2) }) hsteps

/-- **A `finish_reason`** completes the open calls, and closes every call. -/
theorem steps_closeToolBlocks (hp : Streaming p) :
    ∃ p', Steps p (closeChatCompatToolBlocks ingress)
        (fun i => if (callAt p.chatCompatToolLifecycles i).lifecycle = .opened then [.complete] else [])
        p' ∧ Streaming p' ∧
      ∀ i, (callAt p.chatCompatToolLifecycles i).lifecycle = .opened →
        (callAt p'.chatCompatToolLifecycles i).lifecycle = .closed := by
  obtain ⟨p', hsteps, hstarted, hterminated, hnorm, hcalls⟩ := steps_closeCalls ingress hp.plain
  have hat : ∀ i, callAt p'.chatCompatToolLifecycles i =
      if i ∈ keys p.chatCompatToolLifecycles then
        closeLifecycle (callAt p.chatCompatToolLifecycles i) else {} := by
    intro i
    rw [hcalls]
    exact callAt_closeAll p.chatCompatToolLifecycles i
  have hkeys : keys p'.chatCompatToolLifecycles = keys p.chatCompatToolLifecycles := by
    rw [hcalls, keys, List.map_map]
    rfl
  have hevents : (fun i => if i ∈ toClose p ∧ i ∈ p.openBlocks then [complete] else []) =
      fun i => if (callAt p.chatCompatToolLifecycles i).lifecycle = .opened then
        [complete] else [] := by
    funext i
    have hmem := mem_toClose hp.sorted i
    by_cases hi : (callAt p.chatCompatToolLifecycles i).lifecycle = .opened
    · rw [if_pos hi, if_pos ⟨hmem.mpr hi, hp.opened i hi⟩]
    · rw [if_neg hi, if_neg fun h => hi (hmem.mp h.1)]
  rw [hevents] at hsteps
  refine ⟨p', hsteps, ⟨hstarted.trans hp.started, hterminated.trans hp.running, hnorm.trans hp.plain,
    ?_, fun i hi => ?_⟩, fun i hi => ?_⟩
  · rw [Sorted, hkeys]
    exact hp.sorted
  · rw [hat i] at hi
    split at hi <;> cases hi
  · rw [hat i, if_pos (mem_keys_of_opened hi)]
    rfl

theorem terminated_run (deltas : List ChatCompatToolCallDelta)
    (h : s.protocolIngress.chatCompatStreamTerminated = true) :
    forEach deltas (applyChatCompatToolDelta ingress) s = some ((), [], s) := by
  induction deltas with
  | nil => rfl
  | cons toolCall deltas ih =>
    have hdelta : applyChatCompatToolDelta ingress toolCall s = some ((), [], s) := by
      rw [applyChatCompatToolDelta, bind_of_some (read_run s), if_pos h]
      rfl
    show (applyChatCompatToolDelta ingress toolCall >>= fun _ => _) s = _
    rw [bind_of_some hdelta, ih]
    rfl

theorem done_run {s₁ : RuntimeEnvelopeNormalizer} {out : List RuntimeEnvelope}
    (h : closeChatCompatToolBlocks ingress s = some ((), out, s₁)) :
    ∃ s₂, endStream ingress .done s = some ((), out, s₂) ∧
      s₂.protocolIngress.chatCompatStreamTerminated = true := by
  refine ⟨{ s₁ with protocolIngress := { s₁.protocolIngress with
    chatCompatMessageStarted := false
    chatCompatStreamTerminated := true
    chatCompatToolLifecycles := [] } }, ?_, rfl⟩
  show (closeChatCompatToolBlocks ingress >>= fun _ => modifyIngress _) s = _
  rw [bind_of_some h]
  show prepend out (some ((), [], _)) = _
  rw [prepend_some, List.append_nil]

theorem steps_total (p : ProtocolIngressState) (deltas : List ChatCompatToolCallDelta) :
    ∃ events, Steps p (forEach deltas (applyChatCompatToolDelta ingress)) events
      (afterDeltas ingress.toHost p deltas) := by
  induction deltas generalizing p with
  | nil => exact ⟨fun _ => [], steps_pure⟩
  | cons toolCall deltas ih =>
    obtain ⟨events, hsteps⟩ := ih (afterDelta ingress.toHost p toolCall)
    exact ⟨_, steps_bind (steps_delta ingress p toolCall) hsteps⟩

/-! ### Assembly -/

def Named (index : ℕ) (deltas : List ChatCompatToolCallDelta) : Prop :=
  ∃ toolCall ∈ callDeltas index deltas, (deltaName toolCall).isSome = true

/-- The events of a call: one start, the pieces and one complete, which carry its arguments; and nothing
behind the close. -/
structure CallAssembled (codec : JsonCodec) (index : ℕ) (deltas : List ChatCompatToolCallDelta)
    (events late : List BlockEvent) : Prop where
  block : ∃ (id name : String) (input : Value) (pieces : List String),
    events = .start (.toolCall id name input .pending) :: (pieces.map .delta ++ [.complete]) ∧
      Carries codec input pieces (argumentsText codec (fragments (callDeltas index deltas)))
  ignored : late = []

/-- The deltas and the end of a stream, and the deltas that arrive late: every call whose name arrives is
assembled, and nothing follows `[DONE]`. -/
def Assembles (s : RuntimeEnvelopeNormalizer) (deltas : List ChatCompatToolCallDelta)
    (ended : StreamEnd) (late : List ChatCompatToolCallDelta) : Prop :=
  ∃ out s₁ lateOut s₂,
    (forEach deltas (applyChatCompatToolDelta ingress) >>= fun _ => endStream ingress ended) s =
        some ((), out, s₁) ∧
      forEach late (applyChatCompatToolDelta ingress) s₁ = some ((), lateOut, s₂) ∧
      (ended = .done → lateOut = []) ∧
      ∀ index, Named index deltas → CallAssembled ingress.codec index deltas
        (blockEvents (index + 1) out) (blockEvents (index + 1) lateOut)

/-- In front of the tool calls of a turn, whose pulse may have been opened by what came before. -/
def atStreamStart (started : Bool) (s : RuntimeEnvelopeNormalizer) : RuntimeEnvelopeNormalizer :=
  { s with protocolIngress := { turnStarted := started }, openFinalTextBlock := none }

theorem streaming_start : Streaming { turnStarted := true } :=
  ⟨rfl, rfl, rfl, List.Pairwise.nil, fun _ h => by cases h⟩

theorem end_run (hp : Streaming p) (ended : StreamEnd) (late : List ChatCompatToolCallDelta)
    (hs : IngressIs p s) :
    ∃ out s₁ lateOut s₂, endStream ingress ended s = some ((), out, s₁) ∧
      forEach late (applyChatCompatToolDelta ingress) s₁ = some ((), lateOut, s₂) ∧
      (ended = .done → lateOut = []) ∧
      (∀ i, blockEvents i out =
        if (callAt p.chatCompatToolLifecycles i).lifecycle = .opened then [.complete] else []) ∧
      ∀ i, (callAt p.chatCompatToolLifecycles (i + 1)).lifecycle = .opened →
        blockEvents (i + 1) lateOut = [] := by
  obtain ⟨p', hclose, hp', hclosed⟩ := steps_closeToolBlocks ingress hp
  obtain ⟨_, out, s₁, hrun, hs₁, hout⟩ := hclose s hs
  cases ended with
  | finishReason =>
    obtain ⟨events, hlate, -, hruns⟩ := streaming_run ingress hp' late
    obtain ⟨_, lateOut, s₂, hrun', -, hlateOut⟩ := hlate s₁ hs₁
    refine ⟨out, s₁, lateOut, s₂, hrun, hrun', fun h => (by cases h), hout, fun i hi => ?_⟩
    have hcall := hruns i
    rw [callRun_closed ingress.toHost _ _ (hclosed (i + 1) hi)] at hcall
    rw [hlateOut]
    exact (congrArg Prod.fst hcall).symm
  | done =>
    obtain ⟨s₂, hend, hterminated⟩ := done_run ingress hrun
    exact ⟨out, s₂, [], s₂, hend, terminated_run ingress late hterminated, fun _ => rfl, hout,
      fun _ _ => rfl⟩

/-- **When the pulse is open**, a stream is assembled exactly when no call loses leading values. -/
theorem assembles_started_iff (hjson : ∀ v, ingress.codec.toString v ≠ []) (s : RuntimeEnvelopeNormalizer)
    (deltas : List ChatCompatToolCallDelta) (ended : StreamEnd) (late : List ChatCompatToolCallDelta) :
    Assembles ingress (atStreamStart true s) deltas ended late ↔
      ∀ index, Named index deltas →
        KeepsLeading ingress.codec (fragments (untilNamed (callDeltas index deltas))) := by
  obtain ⟨events, hdeltas, hp, hruns⟩ := streaming_run ingress streaming_start deltas
  obtain ⟨_, out, s₁, hrun, hs₁, hout⟩ := hdeltas (atStreamStart true s) ⟨rfl, rfl⟩
  obtain ⟨endOut, s₂, lateOut, s₃, hend, hlate, hdone, hcomplete, hignored⟩ :=
    end_run ingress hp ended late hs₁
  have hwhole : (forEach deltas (applyChatCompatToolDelta ingress) >>= fun _ =>
      endStream ingress ended) (atStreamStart true s) = some ((), out ++ endOut, s₂) := by
    rw [bind_of_some hrun, hend, prepend_some]
  -- the block of a call whose name arrives
  have hnamed : ∀ index, Named index deltas →
      ∃ (id name : String) (input : Value) (pieces : List String),
        blockEvents (index + 1) (out ++ endOut) =
            .start (.toolCall id name input .pending) :: (pieces.map .delta ++ [.complete]) ∧
          blockEvents (index + 1) lateOut = [] ∧
          (Carries ingress.codec input pieces
              (argumentsText ingress.codec (fragments (callDeltas index deltas))) ↔
            KeepsLeading ingress.codec (fragments (untilNamed (callDeltas index deltas)))) := by
    intro index hname
    obtain ⟨id, name, input, pieces, state', hcall, hopened, hcarries⟩ :=
      callRun_named ingress.toHost hjson (index + 1) (callDeltas index deltas) hname
    obtain ⟨hevents, hstate⟩ := Prod.mk.inj (hcall.symm.trans (hruns index))
    rw [hstate] at hopened
    refine ⟨id, name, input, pieces, ?_, hignored index hopened, hcarries⟩
    rw [blockEvents_append, hout, ← hevents, hcomplete, if_pos hopened]
    rfl
  constructor
  · rintro ⟨out', s₁', lateOut', s₂', hwhole', -, -, hcalls⟩ index hname
    obtain ⟨id, name, input, pieces, hevents, -, hcarries⟩ := hnamed index hname
    obtain ⟨id', name', input', pieces', hevents', hcarried⟩ := (hcalls index hname).block
    rw [hwhole] at hwhole'
    obtain ⟨hsame, -⟩ : out ++ endOut = out' ∧ s₂ = s₁' := by simpa using hwhole'
    rw [← hsame, hevents] at hevents'
    obtain ⟨hstart, hpieces⟩ := List.cons.inj hevents'
    obtain ⟨-, -, rfl, -⟩ := StreamBlock.toolCall.inj (start.inj hstart)
    obtain rfl : pieces = pieces' :=
      List.map_injective_iff.mpr (fun _ _ h => delta.inj h) (List.append_cancel_right hpieces)
    exact hcarries.mp hcarried
  · intro hkeeps
    refine ⟨out ++ endOut, s₂, lateOut, s₃, hwhole, hlate, hdone, fun index hname => ?_⟩
    obtain ⟨id, name, input, pieces, hevents, hignored, hcarries⟩ := hnamed index hname
    exact ⟨⟨id, name, input, pieces, hevents, hcarries.mpr (hkeeps index hname)⟩, hignored⟩

/-! ### A stream that opens the pulse -/

/-- What holds of the ingress state before the first name has opened the pulse. -/
structure Waiting (p : ProtocolIngressState) : Prop where
  idle : p.turnStarted = false
  running : p.chatCompatStreamTerminated = false
  plain : p.taggedTextNormalisers = []
  calls : ∀ index, (callAt p.chatCompatToolLifecycles index).lifecycle = .discovered ∧
    (callAt p.chatCompatToolLifecycles index).name = ""

theorem waiting_start : Waiting { turnStarted := false } := ⟨rfl, rfl, rfl, fun _ => ⟨rfl, rfl⟩⟩

theorem waiting_delta (hp : Waiting p) (hdelta : deltaName toolCall = none) :
    Waiting (afterDelta ingress.toHost p toolCall) ∧
      Steps p (applyChatCompatToolDelta ingress toolCall) (fun _ => [])
        (afterDelta ingress.toHost p toolCall) := by
  obtain ⟨hlife, hname⟩ := hp.calls (callIndex toolCall + 1)
  obtain ⟨hlife', hname'⟩ := mergeToolDelta_unnamed ingress.toHost hlife hname hdelta
  have hstep := callStep_unnamed ingress.toHost (callIndex toolCall + 1) hlife hname hdelta
  have hopening : openingBlock (callIndex toolCall + 1) (mergeToolDelta ingress.toHost toolCall
      (callAt p.chatCompatToolLifecycles (callIndex toolCall + 1))) = none :=
    if_neg fun h => h.2 hname'
  have hsame : afterOpening (mergeToolDelta ingress.toHost toolCall
      (callAt p.chatCompatToolLifecycles (callIndex toolCall + 1))) =
      mergeToolDelta ingress.toHost toolCall (callAt p.chatCompatToolLifecycles (callIndex toolCall + 1)) :=
    if_neg fun h => h.2 hname'
  have hpartial : partialArguments (mergeToolDelta ingress.toHost toolCall
      (callAt p.chatCompatToolLifecycles (callIndex toolCall + 1))) = none := by
    refine if_neg fun h => ?_
    rw [hlife'] at h
    exact ToolCallLifecycle.noConfusion h.1
  have hopen : ¬ (p.chatCompatStreamTerminated = true ∨
      (callAt p.chatCompatToolLifecycles (callIndex toolCall + 1)).lifecycle = .closed) := by
    rw [hp.running, hlife]
    exact not_or.mpr ⟨Bool.false_ne_true, ToolCallLifecycle.noConfusion⟩
  have hafter : afterDelta ingress.toHost p toolCall =
      withCall p (callIndex toolCall + 1) (mergeToolDelta ingress.toHost toolCall
        (callAt p.chatCompatToolLifecycles (callIndex toolCall + 1))) := by
    rw [afterDelta, if_neg hopen]
    simp only [hopening, hsame, hpartial, hstep, Option.isSome_none, Bool.false_eq_true, if_false]
  refine ⟨?_, ?_⟩
  · rw [hafter]
    refine ⟨hp.idle, hp.running, hp.plain, fun i => ?_⟩
    rw [callAt_withCall]
    split
    · exact ⟨hlife', hname'⟩
    · exact hp.calls i
  · have hsteps := steps_delta ingress p toolCall
    rw [if_neg (by rw [hp.running]; exact Bool.false_ne_true), hstep, only_nil] at hsteps
    exact hsteps

/-- A stream that opens the pulse: behind the delta that does, the state of every call is forgotten. -/
theorem opening_forgets (hp : Waiting p) (hdelta : (deltaName toolCall).isSome = true) :
    afterDelta ingress.toHost p toolCall =
      openAt { turnStarted := true } (callIndex toolCall + 1) := by
  obtain ⟨hlife, -⟩ := hp.calls (callIndex toolCall + 1)
  have hopening : (openingBlock (callIndex toolCall + 1) (mergeToolDelta ingress.toHost toolCall
      (callAt p.chatCompatToolLifecycles (callIndex toolCall + 1)))).isSome = true := by
    rw [openingBlock, if_pos (mergeToolDelta_naming ingress.toHost hlife hdelta)]
    rfl
  have hopen : ¬ (p.chatCompatStreamTerminated = true ∨
      (callAt p.chatCompatToolLifecycles (callIndex toolCall + 1)).lifecycle = .closed) := by
    rw [hp.running, hlife]
    exact not_or.mpr ⟨Bool.false_ne_true, ToolCallLifecycle.noConfusion⟩
  rw [afterDelta, if_neg hopen]
  simp only [hopening, if_true]
  have hpulse : ∀ q : ProtocolIngressState, q.turnStarted = false →
      q.atPulse = { turnStarted := true } := fun q hq => by
    rw [atPulse, hq]
    rfl
  rw [hpulse]
  exact hp.idle

theorem waiting_run (hp : Waiting p) (deltas : List ChatCompatToolCallDelta)
    (hdeltas : ∀ toolCall ∈ deltas, deltaName toolCall = none) :
    Waiting (afterDeltas ingress.toHost p deltas) ∧
      Steps p (forEach deltas (applyChatCompatToolDelta ingress)) (fun _ => [])
        (afterDeltas ingress.toHost p deltas) := by
  induction deltas generalizing p with
  | nil => exact ⟨hp, steps_pure⟩
  | cons toolCall deltas ih =>
    obtain ⟨hdelta, hrest⟩ := List.forall_mem_cons.mp hdeltas
    obtain ⟨hp', hsteps⟩ := waiting_delta ingress hp hdelta
    obtain ⟨hp'', hsteps'⟩ := ih hp' hrest
    exact ⟨hp'', steps_behind hsteps hsteps'⟩

theorem streaming_opened (index : ℕ) : Streaming (openAt { turnStarted := true } index) :=
  ⟨rfl, rfl, rfl, List.Pairwise.nil, fun _ h => by cases h⟩

/-- A first delta with a name, and those in front of it. -/
theorem exists_first_named (h : ∃ toolCall ∈ deltas, (deltaName toolCall).isSome = true) :
    ∃ before toolCall rest, deltas = before ++ toolCall :: rest ∧
      (deltaName toolCall).isSome = true ∧ ∀ other ∈ before, deltaName other = none := by
  obtain ⟨found, hfound⟩ := Option.isSome_iff_exists.mp (List.find?_isSome.mpr h)
  obtain ⟨hname, before, rest, heq, hbefore⟩ := List.find?_eq_some_iff_append.mp hfound
  exact ⟨before, found, rest, heq, hname, fun other hother => by simpa using hbefore other hother⟩

theorem start_notMem (block : StreamBlock) (pieces : List String) :
    BlockEvent.start block ∉ pieces.map .delta ++ [.complete] := by
  simp

theorem complete_notMem (pieces : List String) : BlockEvent.complete ∉ pieces.map .delta := by
  simp

/-- **A stream that opens the pulse** with a call does not assemble that call: it gets no complete, or a
second start. -/
theorem not_assembles_unstarted (hjson : ∀ v, ingress.codec.toString v ≠ [])
    (s : RuntimeEnvelopeNormalizer) (ended : StreamEnd) (late : List ChatCompatToolCallDelta)
    (h : ∃ toolCall ∈ deltas, (deltaName toolCall).isSome = true) :
    ¬ Assembles ingress (atStreamStart false s) deltas ended late := by
  obtain ⟨before, toolCall, rest, rfl, hname, hbefore⟩ := exists_first_named h
  obtain ⟨hwaiting, hfirst⟩ := waiting_run ingress waiting_start before hbefore
  obtain ⟨index, hindex⟩ : ∃ index, callIndex toolCall = index := ⟨_, rfl⟩
  have hdelta := steps_delta ingress (afterDeltas ingress.toHost { turnStarted := false } before) toolCall
  rw [opening_forgets ingress hwaiting hname, hindex,
    if_neg (by rw [hwaiting.running]; exact Bool.false_ne_true)] at hdelta
  obtain ⟨id, name, pieces, hstep, -⟩ := callStep_naming ingress.toHost (index + 1)
    (hwaiting.calls (index + 1)).1 hname
  rw [hstep] at hdelta
  -- behind the opening the run of the call starts anew
  obtain ⟨events, hrest, hstreaming, hruns⟩ := streaming_run ingress (streaming_opened (index + 1)) rest
  obtain ⟨_, out, s₁, hrun, hs₁, hout⟩ :=
    steps_behind hfirst (steps_bind hdelta hrest) (atStreamStart false s) ⟨rfl, rfl⟩
  obtain ⟨endOut, s₂, lateOut, s₃, hend, -, -, hcomplete, -⟩ :=
    end_run ingress hstreaming ended late hs₁
  have hdeltas : forEach (before ++ toolCall :: rest) (applyChatCompatToolDelta ingress)
      (atStreamStart false s) = some ((), out, s₁) := by
    rw [forEach_append]
    exact hrun
  have hwhole : (forEach (before ++ toolCall :: rest) (applyChatCompatToolDelta ingress) >>= fun _ =>
      endStream ingress ended) (atStreamStart false s) = some ((), out ++ endOut, s₂) := by
    rw [bind_of_some hdeltas, hend, prepend_some]
  rintro ⟨out', s₁', lateOut', s₂', hwhole', -, -, hcalls⟩
  obtain ⟨hsame, -⟩ : out ++ endOut = out' ∧ s₂ = s₁' := by
    rw [hwhole] at hwhole'
    simpa using hwhole'
  have hmem : toolCall ∈ callDeltas index (before ++ toolCall :: rest) :=
    List.mem_filter.mpr ⟨List.mem_append_right _ List.mem_cons_self, decide_eq_true hindex⟩
  obtain ⟨id', name', input', pieces', hblock, -⟩ := (hcalls index ⟨toolCall, hmem, hname⟩).block
  rw [← hsame, blockEvents_append, hout, hcomplete] at hblock
  simp only [only_self] at hblock
  have htail := (List.cons.inj hblock).2
  have hcall := hruns index
  by_cases hagain : ∃ other ∈ callDeltas index rest, (deltaName other).isSome = true
  · obtain ⟨id₂, name₂, input₂, pieces₂, state₂, hcall₂, -, -⟩ :=
      callRun_named ingress.toHost hjson (index + 1) (callDeltas index rest) hagain
    obtain ⟨hevents, -⟩ := Prod.mk.inj (hcall₂.symm.trans hcall)
    refine start_notMem (.toolCall id₂ name₂ input₂ .pending) pieces' ?_
    rw [← htail, ← hevents]
    exact List.mem_append_left _ (List.mem_append_right _ List.mem_cons_self)
  · have hunnamed : ∀ other ∈ callDeltas index rest, deltaName other = none := fun other hother =>
      Option.not_isSome_iff_eq_none.mp fun hsome => hagain ⟨other, hother, hsome⟩
    have hfresh : ({} : PendingChatCompatToolState).lifecycle = .discovered := rfl
    obtain ⟨state₂, hcall₂, hlife₂⟩ := callRun_unnamed ingress.toHost (index + 1)
      (callDeltas index rest) hfresh rfl hunnamed
    obtain ⟨hevents, hstate⟩ := Prod.mk.inj (hcall₂.symm.trans hcall)
    refine complete_notMem pieces ?_
    rw [← hevents, ← hstate, hlife₂] at htail
    have hpieces : pieces.map delta = pieces'.map .delta ++ [.complete] := by
      simpa using htail
    rw [hpieces]
    exact List.mem_append_right _ List.mem_cons_self

/-- A stream without a name has no call to assemble. -/
theorem assembles_unnamed (s : RuntimeEnvelopeNormalizer) (ended : StreamEnd)
    (late : List ChatCompatToolCallDelta) (h : ∀ toolCall ∈ deltas, deltaName toolCall = none) :
    Assembles ingress (atStreamStart false s) deltas ended late := by
  obtain ⟨hwaiting, hsteps⟩ := waiting_run ingress waiting_start deltas h
  obtain ⟨_, out, s₁, hrun, hs₁, -⟩ := hsteps (atStreamStart false s) ⟨rfl, rfl⟩
  obtain ⟨p', hclose, -⟩ := steps_closeCalls ingress hwaiting.plain
  obtain ⟨_, endOut, s₂, hclosed, hs₂, -⟩ := hclose s₁ hs₁
  have hnone : ∀ index, ¬ Named index deltas := by
    rintro index ⟨toolCall, hmem, hname⟩
    rw [h toolCall (List.mem_filter.mp hmem).1] at hname
    cases hname
  cases ended with
  | finishReason =>
    obtain ⟨events, hlate⟩ := steps_total ingress p' late
    obtain ⟨_, lateOut, s₃, hrun', -, -⟩ := hlate s₂ hs₂
    refine ⟨out ++ endOut, s₂, lateOut, s₃, ?_, hrun', fun h => (by cases h),
      fun index hname => absurd hname (hnone index)⟩
    rw [bind_of_some hrun]
    show prepend out (closeChatCompatToolBlocks ingress s₁) = _
    rw [hclosed, prepend_some]
  | done =>
    obtain ⟨s₃, hend, hterminated⟩ := done_run ingress hclosed
    refine ⟨out ++ endOut, s₃, [], s₃, ?_, terminated_run ingress late hterminated, fun _ => rfl,
      fun index hname => absurd hname (hnone index)⟩
    rw [bind_of_some hrun, hend, prepend_some]

/-- **Assembly of the calls of a stream**: every call whose name arrives is one block that carries its
arguments exactly when, if there is such a call, the pulse is open and no call loses a leading value. -/
theorem assembles_iff (hjson : ∀ v, ingress.codec.toString v ≠ []) (started : Bool)
    (s : RuntimeEnvelopeNormalizer) (deltas : List ChatCompatToolCallDelta) (ended : StreamEnd)
    (late : List ChatCompatToolCallDelta) :
    Assembles ingress (atStreamStart started s) deltas ended late ↔
      ∀ index, Named index deltas → started = true ∧
        KeepsLeading ingress.codec (fragments (untilNamed (callDeltas index deltas))) := by
  cases started with
  | true =>
    rw [assembles_started_iff ingress hjson]
    exact ⟨fun h index hname => ⟨rfl, h index hname⟩, fun h index hname => (h index hname).2⟩
  | false =>
    by_cases hnamed : ∃ toolCall ∈ deltas, (deltaName toolCall).isSome = true
    · refine ⟨fun h => absurd h (not_assembles_unstarted ingress hjson s ended late hnamed), ?_⟩
      intro h
      obtain ⟨toolCall, hmem, hname⟩ := hnamed
      have hindex : Named (callIndex toolCall) deltas :=
        ⟨toolCall, List.mem_filter.mpr ⟨hmem, decide_eq_true rfl⟩, hname⟩
      exact absurd (h _ hindex).1 Bool.false_ne_true
    · have hunnamed : ∀ toolCall ∈ deltas, deltaName toolCall = none := fun toolCall hmem =>
        Option.not_isSome_iff_eq_none.mp fun hsome => hnamed ⟨toolCall, hmem, hsome⟩
      refine ⟨fun _ index hname => ?_, fun _ => assembles_unnamed ingress s ended late hunnamed⟩
      obtain ⟨toolCall, hmem, hname⟩ := hname
      exact absurd ⟨toolCall, (List.mem_filter.mp hmem).1, hname⟩ hnamed

def argumentsIngress : Ingress :=
  { sampleIngress with
    codec := { sampleIngress.codec with
      toString := fun value => if value = Value.emptyObject then "\x7b\x7d".toList else "null".toList } }

theorem argumentsIngress_toString (value : Value) : argumentsIngress.codec.toString value ≠ [] := by
  show (if value = Value.emptyObject then "\x7b\x7d".toList else "null".toList) ≠ []
  split <;> decide

def interleavedDeltas : List ChatCompatToolCallDelta :=
  [{ index := some 0, function := some { name := some "ls" } },
    { index := some 1, function := some { arguments := some (.json .null) } },
    { index := some 0, function := some { arguments := some (.string "\x7b") } },
    { index := some 1, function := some { name := some "pwd" } },
    { index := some 0, function := some { arguments := some (.string "\x7d") } }]

theorem assembles_iff_sample :
    Assembles argumentsIngress (atStreamStart true { taskId := "t" }) interleavedDeltas .done [] ↔
      ∀ index, Named index interleavedDeltas → true = true ∧
        KeepsLeading argumentsIngress.codec
          (fragments (untilNamed (callDeltas index interleavedDeltas))) :=
  assembles_iff argumentsIngress argumentsIngress_toString true { taskId := "t" } interleavedDeltas .done
    []

def namedDeltas : List ChatCompatToolCallDelta :=
  [{ index := some 0, function := some { name := some "ls" } },
    { index := some 0, function := some { arguments := some (.string "\x7b\x7d") } }]

/-- **The stream whose first chunk is the call**: opening the pulse forgets the call, so its arguments are
kept for a name that does not come, and it gets no complete. -/
theorem unstarted_call_loses_arguments :
    ¬ Assembles argumentsIngress { taskId := "t" } namedDeltas .done [] := by
  rintro ⟨out, s₁, _, _, hrun, -, -, hcalls⟩
  have hevents : ((forEach namedDeltas (applyChatCompatToolDelta argumentsIngress) >>= fun _ =>
      endStream argumentsIngress .done) { taskId := "t" }).map (fun run => blockEvents 1 run.2.1) =
      some [.start (.toolCall "toolu_chat_compat_1" "ls" Value.emptyObject .pending)] := by
    rfl
  rw [hrun] at hevents
  obtain ⟨id, name, input, pieces, hblock, -⟩ :=
    (hcalls 0 ⟨_, List.mem_cons_self, rfl⟩).block
  rw [Option.map_some, Option.some.injEq, hblock] at hevents
  simp at hevents

end RuntimeEnvelopeNormalizer

end Vexcoder.Handoff

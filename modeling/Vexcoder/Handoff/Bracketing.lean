import Vexcoder.Handoff.Blocks
import Vexcoder.Stream.IngressAdapter

/-!
# Runs of ingress keep the blocks bracketed

`ClearRun` threads the conditions of the block operations through a run.  Under it every item and
every chunk keeps the monitor of the open blocks in step with the normaliser, and the end of the turn
closes what is left, each block once (`bracketed_of_clearRun`).
-/

namespace Vexcoder.Handoff

open Base Lib Lib.Assoc Lib.Emitter Vexcoder.Runtime
open Vexcoder.Stream

namespace RuntimeEnvelopeNormalizer

variable (ingress : Ingress)

/-! ### Operations without conditions -/

theorem blocksInv_modifyIngress {f : ProtocolIngressState → ProtocolIngressState}
    (hf : ∀ p, (f p).openBlocks = p.openBlocks ∧
      (f p).taggedTextNormalisers = p.taggedTextNormalisers ∧
      (f p).turnStarted = p.turnStarted) : Keeps bracketStep BlocksInv (modifyIngress f) := by
  refine Spec.modify fun s m hs => ?_
  obtain ⟨p, hat, hp⟩ := hs
  obtain ⟨hopen, hnorm, hstarted⟩ := hf p
  refine ⟨f p, ⟨congrArg f hat.state, hat.noText, hopen ▸ hat.opens⟩, hopen ▸ hp.nodup, ?_, ?_⟩
  · rw [hopen, hnorm]; exact hp.normalisers
  · rw [hopen, hstarted]; exact hp.idle

theorem blocksInv_ensure :
    Spec bracketStep BlocksInv (ensureProtocolIngressTurnStarted ingress)
      fun out s m => ∃ m', watch bracketStep m out = some m' ∧ BlocksInv s m' := by
  refine Spec.exists fun p => ?_
  intro s m a out s' hs hrun
  obtain ⟨hat, hp⟩ := hs
  obtain ⟨m', hw, m₁, hw₁, hat'⟩ := at_ensure ingress hp.idle s m a out s' hat hrun
  exact ⟨m', hw, m₁, hw₁, _, hat', (wellOpened_atPulse hp).1⟩

theorem blocksInv_emitSignal {signal : RuntimeSignal} (hsignal : isNeutral signal = true) :
    Keeps bracketStep BlocksInv (do emit (← emitSignal ingress.toHost signal)) := by
  refine Spec.exists fun p => ?_
  intro s m a out s' hs hrun
  obtain ⟨hat, hp⟩ := hs
  obtain ⟨m', hw, hat'⟩ := at_neutral ingress.toHost hsignal none s m a out s' hat hrun
  exact ⟨m', hw, p, hat', hp⟩

theorem blocksInv_emitProviderMetadata (metadata : StreamChunkMetadata) :
    Keeps bracketStep BlocksInv (emitProviderMetadata ingress metadata) := by
  refine Spec.bind (blocksInv_ensure ingress) fun _ => Spec.bind Spec.emitAll fun _ => ?_
  exact blocksInv_emitSignal ingress rfl

theorem blocksInv_emitProviderUsage (usage : ApiUsage) :
    Keeps bracketStep BlocksInv (emitProviderUsage ingress usage) := by
  refine Spec.bind (blocksInv_modifyIngress fun _ => ⟨rfl, rfl, rfl⟩) fun _ => ?_
  refine Spec.bind (blocksInv_ensure ingress) fun _ => Spec.bind Spec.emitAll fun _ => ?_
  exact Spec.forSome fun usage _ => blocksInv_emitSignal ingress rfl

theorem blocksInv_emitChatCompatMessageStart (chunk : ChatCompatChunk) :
    Keeps bracketStep BlocksInv (emitChatCompatMessageStart ingress chunk) := by
  refine Spec.read_any fun s => ?_
  dsimp only
  split
  · exact Spec.pure fun _ _ hs => hs
  split
  · refine Spec.bind (blocksInv_modifyIngress fun _ => ⟨rfl, rfl, rfl⟩) fun _ => ?_
    exact Spec.forSome fun metadata _ => blocksInv_emitProviderMetadata ingress metadata
  · exact Spec.pure fun _ _ hs => hs

theorem blocksInv_closeChatCompatToolBlocks :
    Keeps bracketStep BlocksInv (closeChatCompatToolBlocks ingress) := by
  refine Spec.read_any fun s => ?_
  refine Spec.bind (blocksInv_modifyIngress fun _ => ⟨rfl, rfl, rfl⟩) fun _ => ?_
  exact Spec.forEach fun index _ => blocksInv_closeProviderStreamBlock ingress index

/-! ### Tool deltas -/

variable {p : ProtocolIngressState}

theorem started_of_mem (hp : WellOpened p) {index : ℕ} (hindex : index ∈ p.openBlocks) :
    p.turnStarted = true := by
  cases hstarted : p.turnStarted with
  | true => rfl
  | false => rw [hp.idle hstarted] at hindex; cases hindex

theorem atPulse_of_started (hp : p.turnStarted = true) : p.atPulse = p := if_pos hp

theorem blocksInv_partialArguments (hp : WellOpened p) {index : ℕ} {arguments : Option String}
    (h : arguments = none ∨ index ∈ p.openBlocks) :
    Spec bracketStep (At p p.openBlocks)
      (forSome arguments fun json =>
        applyProviderStreamDelta ingress index (.toolArguments json)) fun _ => BlocksInv := by
  cases arguments with
  | none => exact Spec.pure fun _ _ hs => blocksInv_of_at hp hs
  | some json =>
    have hindex := h.resolve_left (Option.some_ne_none json)
    rw [forSome_some]
    refine blocksInv_applyProviderStreamDelta ingress hp ?_
    rw [atPulse_of_started (started_of_mem hp hindex)]
    exact Or.inr hindex

theorem blocksInv_applyChatCompatToolDelta (hp : WellOpened p) {toolCall : ChatCompatToolCallDelta}
    (hclear : ClearToolDelta ingress p toolCall) :
    Spec bracketStep (At p p.openBlocks) (applyChatCompatToolDelta ingress toolCall)
      fun _ => BlocksInv := by
  unfold ClearToolDelta at hclear
  refine Spec.read_of (fun _ _ hs => hs.state) fun s hs => ?_
  rw [hs]
  dsimp only at hclear ⊢
  generalize min (toolCall.index.getD 0) maxToolCallIndex + 1 = index at hclear ⊢
  generalize (find? index p.chatCompatToolLifecycles).getD {} = state at hclear ⊢
  by_cases hterminated : p.chatCompatStreamTerminated = true
  · rw [if_pos hterminated]
    exact Spec.pure fun _ _ hs => blocksInv_of_at hp hs
  by_cases hlifecycle : state.lifecycle = .closed
  · rw [if_neg hterminated, if_pos hlifecycle]
    exact Spec.pure fun _ _ hs => blocksInv_of_at hp hs
  rw [if_neg hterminated, if_neg hlifecycle]
  have hcond := (hclear.resolve_left hterminated).resolve_left hlifecycle
  generalize mergeToolDelta ingress.toHost toolCall state = merged at hcond ⊢
  refine Spec.bind (at_modifyIngress _) fun _ => ?_
  cases hopening : openingBlock index merged with
  | none =>
    rw [hopening] at hcond
    rw [forSome_none, pure_bind]
    exact blocksInv_partialArguments ingress (p := { p with
      chatCompatToolLifecycles :=
        insertSorted index (afterPartial (afterOpening merged)) p.chatCompatToolLifecycles })
      ⟨hp.nodup, hp.normalisers, hp.idle⟩ hcond
  | some contentBlock =>
    rw [hopening] at hcond
    obtain ⟨id, name, input, rfl⟩ : ∃ id name input, contentBlock = .toolUse id name input := by
      unfold openingBlock at hopening
      split at hopening
      · exact ⟨_, _, _, (Option.some.inj hopening).symm⟩
      · cases hopening
    obtain ⟨q, hq⟩ : ∃ q, { p with
      chatCompatToolLifecycles :=
        insertSorted index (afterPartial (afterOpening merged)) p.chatCompatToolLifecycles
      hasNativeToolCalls := true } = q := ⟨_, rfl⟩
    have hqwell : WellOpened q := by
      rw [← hq]
      exact ⟨hp.nodup, hp.normalisers, hp.idle⟩
    have hindex : index ∉ q.atPulse.openBlocks := by
      unfold ProtocolIngressState.atPulse
      split
      · rw [← hq]; exact hcond
      · exact List.not_mem_nil
    obtain ⟨hqpulse, hstarted⟩ := wellOpened_atPulse hqwell
    rw [forSome_some, bind_assoc]
    refine Spec.bind (R := fun _ => At q q.openBlocks) ?_ fun _ => ?_
    · rw [← hq]
      exact at_modifyIngress _
    refine Spec.bind (at_openTool ingress rfl hqwell.idle hindex) fun _ => ?_
    exact blocksInv_partialArguments ingress (wellOpened_openAt hqpulse hstarted hindex)
      (Or.inr (mem_insertElem.mpr (Or.inl rfl)))

/-! ### Runs -/

theorem blocksInv_runOp (op : IngressOp) :
    Spec bracketStep (fun s m => BlocksInv s m ∧ ClearOp ingress s op) (runOp ingress op)
      fun _ => BlocksInv := by
  have hkeep : ∀ {x : Emit Unit}, Keeps bracketStep BlocksInv x →
      Spec bracketStep (fun s m => BlocksInv s m ∧ ClearOp ingress s op) x fun _ => BlocksInv :=
    fun hx => hx.conseq (fun _ _ hs => hs.1) fun _ _ _ hs => hs
  cases op with
  | metadata metadata => exact hkeep (blocksInv_emitProviderMetadata ingress metadata)
  | usage usage => exact hkeep (blocksInv_emitProviderUsage ingress usage)
  | messageStart chunk => exact hkeep (blocksInv_emitChatCompatMessageStart ingress chunk)
  | closeBlock index => exact hkeep (blocksInv_closeProviderStreamBlock ingress index)
  | closeToolBlocks => exact hkeep (blocksInv_closeChatCompatToolBlocks ingress)
  | terminate =>
    refine hkeep ?_
    unfold runOp terminateStream
    exact blocksInv_modifyIngress fun _ => ⟨rfl, rfl, rfl⟩
  | errorSignal code message => exact hkeep (blocksInv_emitSignal ingress rfl)
  | logPanic => exact Spec.crash
  | openBlock index contentBlock =>
    intro s m a out s' hs hrun
    obtain ⟨⟨p, hat, hp⟩, hclear⟩ := hs
    rw [ClearOp, hat.state] at hclear
    exact blocksInv_openProviderStreamBlock ingress hp hclear s m a out s' hat hrun
  | delta index blockDelta =>
    intro s m a out s' hs hrun
    obtain ⟨⟨p, hat, hp⟩, hclear⟩ := hs
    rw [ClearOp, hat.state] at hclear
    exact blocksInv_applyProviderStreamDelta ingress hp hclear s m a out s' hat hrun
  | toolDelta toolCall =>
    intro s m a out s' hs hrun
    obtain ⟨⟨p, hat, hp⟩, hclear⟩ := hs
    rw [ClearOp, hat.state] at hclear
    exact blocksInv_applyChatCompatToolDelta ingress hp hclear s m a out s' hat hrun

def ClearRun : List IngressOp → RuntimeEnvelopeNormalizer → Prop
  | [], _ => True
  | op :: ops, s =>
    ClearOp ingress s op ∧
      match runOp ingress op s with
      | none => True
      | some (_, _, s') => ClearRun ops s'

instance decidableClearRun :
    (ops : List IngressOp) → (s : RuntimeEnvelopeNormalizer) → Decidable (ClearRun ingress ops s)
  | [], _ => isTrue trivial
  | op :: ops, s =>
    @instDecidableAnd _ _ _ (match runOp ingress op s with
      | none => isTrue trivial
      | some (_, _, s') => decidableClearRun ops s')

theorem blocksInv_run (ops : List IngressOp) :
    Spec bracketStep (fun s m => BlocksInv s m ∧ ClearRun ingress ops s)
      (forEach ops (runOp ingress)) fun _ => BlocksInv := by
  induction ops with
  | nil => exact Spec.pure fun _ _ hs => hs.1
  | cons op ops ih =>
    intro s m a out s' hs hrun
    obtain ⟨hinv, hop, hrest⟩ := hs
    obtain ⟨⟨⟩, out₁, s₁, out₂, h₁, h₂, rfl⟩ := bind_eq_some hrun
    rw [h₁] at hrest
    obtain ⟨m₁, hw₁, hinv₁⟩ := blocksInv_runOp ingress op s m () out₁ s₁ ⟨hinv, hop⟩ h₁
    obtain ⟨m₂, hw₂, hinv₂⟩ := ih s₁ m₁ a out₂ s' ⟨hinv₁, hrest⟩ h₂
    refine ⟨m₂, ?_, hinv₂⟩
    rw [watch_append, hw₁]
    exact hw₂

/-! ### The end of the turn -/

theorem at_completeAll {opens : List ℕ} (h : opens.Nodup) :
    Spec bracketStep (At p opens)
      (forEach opens fun index =>
        normalizeUiUpdate ingress.toHost (.streamBlockComplete index) none)
      fun _ => At p [] := by
  induction opens with
  | nil => exact Spec.pure fun _ _ hs => hs
  | cons index opens ih =>
    obtain ⟨hindex, hnodup⟩ := List.nodup_cons.mp h
    refine Spec.bind (at_complete ingress.toHost List.mem_cons_self) fun _ => ?_
    have hrest : (index :: opens).filter (· ≠ index) = opens := by
      rw [List.filter_cons, if_neg (by simp)]
      exact List.filter_eq_self.mpr fun i hi => decide_eq_true (by rintro rfl; exact hindex hi)
    rw [hrest]
    exact ih hnodup

theorem at_pulseComplete (context : PulseEndContext) :
    Spec bracketStep (At p []) (normalizeUiUpdate ingress.toHost .pulseComplete (some context))
      fun _ _ m => m = [] :=
  Spec.of_run fun s m hs => by
    obtain ⟨e, s', changedFiles, hrun, hsig, -⟩ := pulseComplete_run ingress.toHost context hs.noText
    have hm : m = [] := List.eq_nil_iff_forall_not_mem.mpr fun i hi =>
      List.not_mem_nil ((hs.opens i).mp hi)
    exact ⟨(), [e], s', m, hrun, by simp [watch, bracketStep, hsig], hm⟩

theorem blocksInv_finishProtocolIngressTurn :
    Spec bracketStep BlocksInv (finishProtocolIngressTurn ingress) fun _ _ m => m = [] := by
  refine Spec.exists fun p => ?_
  intro s m a out s' hs hrun
  obtain ⟨hat, hp⟩ := hs
  refine (?_ : Spec bracketStep (At p p.openBlocks) (finishProtocolIngressTurn ingress) fun _ _ m =>
    m = []) s m a out s' hat hrun
  refine Spec.read_of (fun _ _ hs => hs.state) fun s hs => ?_
  rw [hs]
  split
  · refine Spec.bind (at_modifyIngress _) fun _ => ?_
    refine Spec.bind (Spec.forEach fun entry hentry => at_emitText ingress
      (hp.normalisers entry.1 (List.mem_map.mpr ⟨entry, hentry, rfl⟩)) _) fun _ => ?_
    refine Spec.read_of (fun _ _ hs => hs.state) fun s hs => ?_
    rw [hs]
    refine Spec.bind (at_modifyIngress _) fun _ => ?_
    refine Spec.bind (at_completeAll ingress hp.nodup) fun _ => ?_
    refine Spec.read_any fun s => ?_
    refine Spec.bind (at_modifyIngress _) fun _ => ?_
    refine Spec.bind (at_pulseComplete ingress _) fun _ => ?_
    exact Spec.modify fun _ _ hm => hm
  · rename_i hstarted
    refine Spec.pure fun s m hs => ?_
    have hopen := hp.idle (Bool.not_eq_true _ ▸ hstarted)
    refine List.eq_nil_iff_forall_not_mem.mpr fun i hi => ?_
    have hmem := (hs.opens i).mp hi
    rw [hopen] at hmem
    cases hmem

/-! ### Turns -/

def adaptOps : IngressPayload → List IngressOp
  | .provider item => itemOps ingress item
  | .chatCompat payload => payloadOps payload

def runTurn (payloads : List IngressPayload) : Emit Unit := do
  forEach payloads (StreamParser.adaptPayload ingress)
  finishProtocolIngressTurn ingress

theorem forEach_adaptPayload (payloads : List IngressPayload) :
    forEach payloads (StreamParser.adaptPayload ingress) =
      forEach (payloads.flatMap (adaptOps ingress)) (runOp ingress) := by
  rw [forEach_flatMap]
  congr 1
  funext payload
  cases payload with
  | provider item => exact normalizeProviderStreamItem_eq ingress item
  | chatCompat payload => exact normalizeChatCompatPayload_eq ingress payload

theorem blocksInv_new (taskId : String) : BlocksInv { taskId } [] :=
  ⟨{}, ⟨rfl, rfl, fun _ => Iff.rfl⟩, List.nodup_nil, by simp [keys], fun _ => rfl⟩

/-- **Blocks are bracketed**: in a turn whose operations all meet their conditions, no block is
started while it is open, every delta and complete is for an open block, and every block is completed
once. -/
theorem bracketed_of_clearRun (taskId : String) (payloads : List IngressPayload)
    (out : List RuntimeEnvelope) (s' : RuntimeEnvelopeNormalizer)
    (h : runTurn ingress payloads { taskId } = some ((), out, s'))
    (hclear : ClearRun ingress (payloads.flatMap (adaptOps ingress)) { taskId }) :
    Bracketed out := by
  obtain ⟨⟨⟩, out₁, s₁, out₂, h₁, h₂, rfl⟩ := bind_eq_some h
  rw [forEach_adaptPayload] at h₁
  obtain ⟨m₁, hw₁, hinv⟩ := blocksInv_run ingress _ _ _ _ _ _ ⟨blocksInv_new taskId, hclear⟩ h₁
  obtain ⟨m₂, hw₂, rfl⟩ := blocksInv_finishProtocolIngressTurn ingress _ _ _ _ _ hinv h₂
  rw [Bracketed, watch_append, hw₁]
  exact hw₂

def samplePayloads : List IngressPayload :=
  [.chatCompat (.chunk { choices := [{ delta := { content := some "a<function=f></function>" } }] }),
    .chatCompat (.chunk { choices := [{ delta := { toolCalls := some [
      { function := some { name := some "ls", arguments := some (.string "x") } }] } }] }),
    .chatCompat .done]

theorem bracketed_of_clearRun_sample : ∃ out s',
    runTurn sampleIngress samplePayloads { taskId := "t" } = some ((), out, s') ∧ Bracketed out := by
  have hrun : (runTurn sampleIngress samplePayloads { taskId := "t" }).isSome = true := by
    decide +kernel
  obtain ⟨⟨⟨⟩, out, s'⟩, hrun⟩ := Option.isSome_iff_exists.mp hrun
  refine ⟨out, s', hrun, ?_⟩
  exact bracketed_of_clearRun sampleIngress "t" samplePayloads out s' hrun (by decide +kernel)

/-- **The tagged call in block one**: the tool block synthesised from the text of an open block with
index one takes that index. -/
theorem taggedCall_takes_open_index : ∃ out s',
    runTurn sampleIngress
      [.provider (.contentBlockDelta 1 { text := some "<function=f></function>" })]
      { taskId := "t" } = some ((), out, s') ∧ ¬ Bracketed out := by
  have hrun : (runTurn sampleIngress
      [.provider (.contentBlockDelta 1 { text := some "<function=f></function>" })]
      { taskId := "t" }).any (fun run => !decide (Bracketed run.2.1)) = true := by
    decide +kernel
  obtain ⟨⟨⟨⟩, out, s'⟩, hrun, hout⟩ := (Option.any_eq_true _ _).mp hrun
  exact ⟨out, s', hrun, by simpa using hout⟩

end RuntimeEnvelopeNormalizer

end Vexcoder.Handoff

import Vexcoder.Lib.Growing
import Vexcoder.Task.RunInvariants

/-!
# The record is append-only

What a run does to what has been recorded already.  Finished turns stay as they are.  An entry of the
running turn keeps its place and what it says: only the text and the phase of a block that is streamed
and the status of a call are still written to, and the text only grows.
-/

namespace Vexcoder.Task

open Base Lib.Growing Vexcoder.Runtime

/-- What a later call may still do to an entry. -/
inductive Revises : PulseEntry → PulseEntry → Prop
  | same (entry : PulseEntry) : Revises entry entry
  | block (stepId : ℕ) {block block' : AssistantBlockEntry} (index : block'.blockIndex = block.blockIndex)
      (collapsed : block'.collapsed = block.collapsed)
      (content : block.content.toList <+: block'.content.toList) :
      Revises (.assistantBlock stepId block) (.assistantBlock stepId block')
  | status (stepId : ℕ) (id name : String) (input : Value) (status status' : ToolStatus) :
      Revises (.toolCall stepId id name input status) (.toolCall stepId id name input status')

theorem Revises.trans (a b c : PulseEntry) (h : Revises a b) (h' : Revises b c) : Revises a c := by
  cases h with
  | same => exact h'
  | block stepId index collapsed content =>
    cases h' with
    | same => exact .block stepId index collapsed content
    | block _ index' collapsed' content' =>
      exact .block stepId (index'.trans index) (collapsed'.trans collapsed) (content.trans content')
  | status =>
    cases h' with
    | same | status => exact .status ..

/-! ### Updates of entries -/

theorem revises_updateFirst {f : PulseEntry → Option PulseEntry}
    (hf : ∀ entry entry', f entry = some entry' → Revises entry entry') (entries : List PulseEntry) :
    List.Forall₂ Revises entries (updateFirst f entries) := by
  induction entries with
  | nil => exact .nil
  | cons entry entries ih =>
    rw [updateFirst]
    split
    · rename_i entry' hentry
      exact .cons (hf entry entry' hentry) (List.forall₂_same.mpr fun other _ => .same other)
    · exact .cons (.same entry) ih

theorem revises_updateBlockContent (blockIndex : ℕ) {mutate : AssistantBlockEntry → AssistantBlockEntry}
    (hmutate : ∀ block, (mutate block).blockIndex = block.blockIndex ∧
      (mutate block).collapsed = block.collapsed ∧
        block.content.toList <+: (mutate block).content.toList) (active : ActiveTurnDocument) :
    List.Forall₂ Revises active.entries (updateBlockContent blockIndex mutate active).entries := by
  rw [updateBlockContent, ← List.forall₂_reverse_iff, List.reverse_reverse]
  refine revises_updateFirst (fun entry entry' h => ?_) _
  cases entry with
  | assistantBlock stepId block =>
    dsimp only at h
    split at h
    · cases h
      obtain ⟨hindex, hcollapsed, hcontent⟩ := hmutate block
      exact .block stepId hindex hcollapsed hcontent
    · cases h
  | _ => cases h

theorem revises_setCallStatus (toolCallId : String) (status : ToolStatus) (active : ActiveTurnDocument) :
    List.Forall₂ Revises active.entries (setCallStatus toolCallId status active).entries := by
  refine revises_updateFirst (fun entry entry' h => ?_) _
  cases entry with
  | toolCall stepId id name input old =>
    dsimp only at h
    split at h
    · cases h
      exact .status stepId id name input old status
    · cases h
  | _ => cases h

theorem revises_stopStreaming (entry : PulseEntry) : Revises entry (TaskDocument.stopStreaming entry) := by
  cases entry with
  | assistantBlock stepId block => exact .block stepId rfl rfl List.prefix_rfl
  | _ => exact .same _

namespace TaskDocument

variable {doc doc' : TaskDocument} {active active' : ActiveTurnDocument}

def entries (doc : TaskDocument) : List PulseEntry :=
  doc.completedTurns.flatMap (·.entries) ++ doc.activeEntries

/-- What was recorded in `doc` still is in `doc'`. -/
structure GrowsTo (doc doc' : TaskDocument) : Prop where
  turns : doc.completedTurns <+: doc'.completedTurns
  entries : Grows Revises doc.entries doc'.entries

theorem GrowsTo.refl (doc : TaskDocument) : doc.GrowsTo doc :=
  ⟨List.prefix_rfl, .refl .same _⟩

theorem GrowsTo.trans {doc'' : TaskDocument} (h : doc.GrowsTo doc') (h' : doc'.GrowsTo doc'') :
    doc.GrowsTo doc'' :=
  ⟨h.turns.trans h'.turns, h.entries.trans Revises.trans h'.entries⟩

theorem GrowsTo.congr {doc'' : TaskDocument} (h : doc.GrowsTo doc')
    (hturns : doc''.completedTurns = doc'.completedTurns) (hpulse : doc''.activePulse = doc'.activePulse) :
    doc.GrowsTo doc'' := by
  have hentries : doc''.entries = doc'.entries := by
    simp only [TaskDocument.entries, activeEntries, hturns, hpulse]
  exact ⟨hturns ▸ h.turns, hentries ▸ h.entries⟩

/-! ### Steps -/

theorem growsTo_of_active (hactive : doc.activePulse = some active)
    (hturns : doc'.completedTurns = doc.completedTurns) (hactive' : doc'.activePulse = some active')
    (hentries : Grows Revises active.entries active'.entries) : doc.GrowsTo doc' := by
  refine ⟨hturns ▸ List.prefix_rfl, ?_⟩
  rw [entries, entries, hturns, activeEntries, activeEntries, hactive, hactive']
  exact hentries.append_left .same _

variable (now now' : ℕ)

/-- **What a signal does to the running turn.** -/
theorem applyToActive_grows (hactive : doc.activePulse = some active) (signal : RuntimeSignal) :
    doc.GrowsTo (applyToActive now doc active signal).1 := by
  have hsame : Grows Revises active.entries active.entries := .refl .same _
  have hstatus : ∀ id status, Grows Revises active.entries (setCallStatus id status active).entries :=
    fun id status => grows_of_forall₂ (revises_setCallStatus id status active)
  cases signal with
  | transcriptLine line | toolCallStarted => exact growsTo_of_active hactive rfl rfl (hsame.append _)
  | transcriptBlockStart index block =>
    cases block with
    | thinking | finalText => exact growsTo_of_active hactive rfl rfl (hsame.append _)
    | _ => exact .refl doc
  | transcriptBlockDelta index delta =>
    refine growsTo_of_active hactive rfl rfl (grows_of_forall₂
      (revises_updateBlockContent index (fun block => ?_) active))
    refine ⟨rfl, rfl, ?_⟩
    rw [String.toList_append]
    exact List.prefix_append _ _
  | transcriptBlockComplete index | transcriptBlockPhaseUpdated index =>
    refine growsTo_of_active hactive rfl rfl (grows_of_forall₂
      (revises_updateBlockContent index (fun block => ?_) active))
    exact ⟨rfl, rfl, List.prefix_rfl⟩
  | toolCallStatusUpdated id status => exact growsTo_of_active hactive rfl rfl (hstatus id status)
  | toolCallCompleted id _ status | toolCallFailed id _ status =>
    exact growsTo_of_active hactive rfl rfl ((hstatus id status).append _)
  | approvalRequest | approvalResolved =>
    simp only [applyToActive]
    split
    · exact growsTo_of_active hactive rfl rfl (hsame.append _)
    · exact .refl doc
  | serverMetadata | pulseEnd => exact growsTo_of_active hactive rfl rfl hsame
  | _ => exact .refl doc

theorem applyRuntimeSignal_grows (signal : RuntimeSignal) :
    doc.GrowsTo (applyRuntimeSignal now now' doc signal).1 := by
  rw [applyRuntimeSignal]
  cases hactive : doc.activePulse with
  | none =>
    obtain ⟨hturns, hpulse, -⟩ := applyToTask_turn signal doc {}
    exact (GrowsTo.refl doc).congr hturns hpulse
  | some active =>
    have hgrows := applyToActive_grows now hactive signal
    dsimp only
    split
    · exact hgrows
    · obtain ⟨hturns, hpulse, -⟩ := applyToTask_turn signal
        (applyToActive now doc active signal).1 (applyToActive now doc active signal).2.1
      exact hgrows.congr hturns hpulse

theorem runOp_grows {op : DocOp} (h : doc.runOp op = some doc') : doc.GrowsTo doc' := by
  cases op with
  | beginTurn input startedAtMs toolPolicy =>
    rw [runOp, beginTurn] at h
    split at h
    · cases h
    rename_i hopen
    cases h
    refine ⟨List.prefix_rfl, ?_⟩
    rw [entries, activeEntries, Option.not_isSome_iff_eq_none.mp hopen, List.append_nil]
    exact (Grows.refl .same _).append _
  | signal now now' signal =>
    cases h
    exact applyRuntimeSignal_grows now now' signal
  | finishTurn outcome tokens completedAtMs =>
    cases h
    rw [finishTurn]
    cases hactive : doc.activePulse with
    | none => exact .refl doc
    | some active =>
      refine ⟨List.prefix_append _ _, ?_⟩
      simp only [entries, activeEntries, hactive, List.flatMap_append, List.flatMap_singleton,
        List.append_nil]
      refine Grows.append_left .same _ (grows_of_forall₂ (List.forall₂_map_right_iff.mpr ?_))
      exact List.forall₂_same.mpr fun entry _ => revises_stopStreaming entry

/-- **The record of a run is append-only.** -/
theorem run_grows (ops : List DocOp) (h : doc.run ops = some doc') : doc.GrowsTo doc' := by
  induction ops generalizing doc with
  | nil =>
    cases h
    exact .refl doc'
  | cons op ops ih =>
    obtain ⟨between, hop, hops⟩ := Option.bind_eq_some_iff.mp h
    exact (runOp_grows hop).trans (ih hops)

/-- While the block of the first turn is streamed, and when the second turn waits for an approval. -/
theorem run_grows_sample :
    ∃ doc doc', (beginTask {}).run (sampleOps.take 2) = some doc ∧
      doc.run (sampleOps.drop 2) = some doc' ∧ doc'.completedTurns.length = 1 ∧ doc.GrowsTo doc' :=
  ⟨_, _, rfl, rfl, rfl, run_grows (sampleOps.drop 2) rfl⟩

end TaskDocument

end Vexcoder.Task

import Vexcoder.Task.Snapshot

/-!
# The evidence of a restored document

The invocations that are saved of a turn are its calls as they ended (`extractToolInvocations_perm`).
A restored turn has them again as calls without a result, under ids made of the step ids on disk and
with a status that the outcome is read into; `keepsEvidence_iff` says for which documents the next
snapshot then holds the same evidence.
-/

namespace Vexcoder.Task

open Base Lib.Assoc Lib.SortByKey Vexcoder.Runtime

/-! ### How calls end -/

/-- What the entries behind a call make of it. -/
inductive CallEnd where
  /-- A later call has the same id. -/
  | replaced
  | answered (output : String) (isError : Bool)
  | unanswered

def callEnd (id : String) : List PulseEntry → CallEnd
  | [] => .unanswered
  | .toolCall _ id' .. :: rest => if id' = id then .replaced else callEnd id rest
  | .toolResult _ toolCallId _ output isError :: rest =>
    if toolCallId = id then .answered output isError else callEnd id rest
  | _ :: rest => callEnd id rest

def OpenCall.ended (call : OpenCall) : CallEnd → Option ToolInvocationSummary
  | .replaced => none
  | .answered output isError =>
    some ⟨call.stepId, call.name, summarizeToolOutcome output isError⟩
  | .unanswered => some (openInvocation call)

def endedCalls : List PulseEntry → List ToolInvocationSummary
  | [] => []
  | .toolCall stepId id name _ status :: rest =>
    (OpenCall.ended ⟨stepId, name, status⟩ (callEnd id rest)).toList ++ endedCalls rest
  | _ :: rest => endedCalls rest

def endedOf (rest : List PulseEntry) (entry : String × OpenCall) : Option ToolInvocationSummary :=
  entry.2.ended (callEnd entry.1 rest)

variable {id : String} {calls : List (String × OpenCall)} {invocations : List ToolInvocationSummary}
  {turnIndex : ℕ}

theorem filterMap_ended_of_replaced {entry : PulseEntry} {rest : List PulseEntry}
    (hsame : callEnd id (entry :: rest) = .replaced)
    (hother : ∀ id', id' ≠ id → callEnd id' (entry :: rest) = callEnd id' rest)
    (calls : List (String × OpenCall)) :
    calls.filterMap (endedOf (entry :: rest)) = (erase id calls).filterMap (endedOf rest) := by
  induction calls with
  | nil => rfl
  | cons call calls ih =>
    obtain ⟨id', call⟩ := call
    by_cases h : id = id'
    · subst h
      rw [erase_cons_self, ← ih]
      exact List.filterMap_cons_none (by rw [endedOf, hsame]; rfl)
    · rw [erase_cons_ne h, List.filterMap_cons, List.filterMap_cons, ih, endedOf, endedOf,
        hother id' (Ne.symm h)]

theorem filterMap_ended_of_notMem (entry : PulseEntry) (rest : List PulseEntry)
    (hother : ∀ id', id' ≠ id → callEnd id' (entry :: rest) = callEnd id' rest) (h : id ∉ keys calls) :
    calls.filterMap (endedOf (entry :: rest)) = calls.filterMap (endedOf rest) := by
  refine List.filterMap_congr fun call hmem => ?_
  rw [endedOf, endedOf, hother]
  rintro rfl
  exact h (List.mem_map_of_mem hmem)

theorem extract_toolCall (hkeys : (keys calls).Nodup) (stepId : ℕ) (id name : String)
    (input : Value) (status : ToolStatus) (rest : List PulseEntry) :
    ((insertLast id (⟨stepId, name, status⟩ : OpenCall) calls).filterMap (endedOf rest) ++
        endedCalls rest).Perm
      (calls.filterMap (endedOf (.toolCall stepId id name input status :: rest)) ++
        endedCalls (.toolCall stepId id name input status :: rest)) := by
  have hreplaced : calls.filterMap (endedOf (.toolCall stepId id name input status :: rest)) =
      (erase id calls).filterMap (endedOf rest) := by
    refine filterMap_ended_of_replaced ?_ (fun id' h => ?_) calls
    · rw [callEnd, if_pos rfl]
    · rw [callEnd, if_neg (Ne.symm h)]
  have hnew := (insertLast_perm hkeys id (⟨stepId, name, status⟩ : OpenCall)).filterMap (endedOf rest)
  have hcons : ((id, (⟨stepId, name, status⟩ : OpenCall)) :: erase id calls).filterMap
      (endedOf rest) = (OpenCall.ended ⟨stepId, name, status⟩ (callEnd id rest)).toList ++
        (erase id calls).filterMap (endedOf rest) := by
    rw [List.filterMap_cons, endedOf]
    cases OpenCall.ended ⟨stepId, name, status⟩ (callEnd id rest) <;> rfl
  rw [hreplaced, endedCalls, ← List.append_assoc]
  refine List.Perm.append_right _ (hnew.trans ?_)
  rw [hcons]
  exact List.perm_append_comm

theorem extract_toolResult (hkeys : (keys calls).Nodup) {call : OpenCall} {stepId : ℕ}
    {toolName : Option String} {output : String} {isError : Bool}
    (hfind : find? id calls = some call) (rest : List PulseEntry) :
    (⟨call.stepId, call.name, summarizeToolOutcome output isError⟩ ::
        (erase id calls).filterMap (endedOf rest)).Perm
      (calls.filterMap (endedOf (.toolResult stepId id toolName output isError :: rest))) := by
  have hanswered : callEnd id (.toolResult stepId id toolName output isError :: rest) =
      .answered output isError := by rw [callEnd, if_pos rfl]
  have hothers : (erase id calls).filterMap
      (endedOf (.toolResult stepId id toolName output isError :: rest)) =
        (erase id calls).filterMap (endedOf rest) := by
    refine filterMap_ended_of_notMem _ _ (fun id' h => ?_) (notMem_keys_erase id calls)
    rw [callEnd, if_neg (Ne.symm h)]
  have hperm := (perm_of_find? hkeys hfind).filterMap
    (endedOf (.toolResult stepId id toolName output isError :: rest))
  rw [List.filterMap_cons_some (by rw [endedOf, hanswered]; rfl), hothers] at hperm
  exact hperm.symm

/-- What the extraction finds in the rest of a turn. -/
theorem extract_perm (entries : List PulseEntry) (calls : List (String × OpenCall))
    (invocations : List ToolInvocationSummary) (hkeys : (keys calls).Nodup) :
    ((entries.foldl extractEntry (calls, invocations)).2 ++
        (entries.foldl extractEntry (calls, invocations)).1.map fun call =>
          openInvocation call.2).Perm
      (invocations ++ (calls.filterMap (endedOf entries) ++ endedCalls entries)) := by
  induction entries generalizing calls invocations with
  | nil =>
    rw [endedCalls, List.append_nil, ← List.filterMap_eq_map]
    exact List.Perm.refl _
  | cons entry rest ih =>
    rw [List.foldl_cons]
    cases entry with
    | toolCall stepId id name input status =>
      refine (ih _ _ (nodup_keys_insertLast hkeys id _)).trans (List.Perm.append_left _ ?_)
      exact extract_toolCall hkeys stepId id name input status rest
    | toolResult stepId toolCallId toolName output isError =>
      rw [extractEntry]
      cases hfind : find? toolCallId calls with
      | none =>
        have hsame := filterMap_ended_of_notMem
          (.toolResult stepId toolCallId toolName output isError) rest
          (fun id' h => by rw [callEnd, if_neg (Ne.symm h)]) (find?_eq_none_iff.mp hfind)
        rw [hsame]
        exact ih _ _ hkeys
      | some call =>
        refine (ih _ _ (nodup_keys_erase hkeys toolCallId)).trans ?_
        rw [List.append_assoc]
        refine List.Perm.append_left _ ?_
        exact List.Perm.append_right _ (extract_toolResult hkeys hfind rest)
    | _ => exact ih _ _ hkeys

/-- **The invocations of a turn** are its calls as they ended, whatever order the hash map has. -/
theorem extractToolInvocations_perm (order : IterationOrder OpenCall) (entries : List PulseEntry) :
    (extractToolInvocations order entries).Perm (endedCalls entries) := by
  have hkeys : (keys ([] : List (String × OpenCall))).Nodup := List.nodup_nil
  have hperm := extract_perm entries [] [] hkeys
  refine (sortByKey_perm _).trans (List.Perm.trans (List.Perm.append_left _ ?_) hperm)
  rw [← Function.comp_def openInvocation, ← List.map_map]
  exact (order.perm _).map openInvocation

theorem extractToolInvocations_sorted (order : IterationOrder OpenCall) (entries : List PulseEntry) :
    (extractToolInvocations order entries).Pairwise fun a b => a.stepId ≤ b.stepId :=
  sortByKey_sorted _

/-! ### Outcomes -/

def outcomes : List String := ["ok", "denied", "cancelled", "error", "pending"]

theorem summarizeToolOutcome_mem (output : String) (isError : Bool) :
    summarizeToolOutcome output isError ∈ outcomes := by
  simp only [summarizeToolOutcome]
  split
  · decide
  split
  · decide
  split <;> decide

theorem outcomeFromStatus_mem (status : ToolStatus) : outcomeFromStatus status ∈ outcomes := by
  cases status <;> decide

theorem outcome_mem_of_ended {entries : List PulseEntry} :
    ∀ call ∈ endedCalls entries, call.outcome ∈ outcomes := by
  induction entries with
  | nil => exact nofun
  | cons entry rest ih =>
    cases entry with
    | toolCall stepId id name input status =>
      intro call hmem
      rcases List.mem_append.mp hmem with hmem | hmem
      · cases hend : callEnd id rest with
        | replaced =>
          rw [hend] at hmem
          exact absurd hmem List.not_mem_nil
        | answered output isError =>
          rw [hend] at hmem
          obtain rfl := List.mem_singleton.mp hmem
          exact summarizeToolOutcome_mem output isError
        | unanswered =>
          rw [hend] at hmem
          obtain rfl := List.mem_singleton.mp hmem
          exact outcomeFromStatus_mem status
      · exact ih call hmem
    | _ => exact ih

/-- A denied call comes back as an error, and every other outcome comes back. -/
theorem outcome_restored_iff {outcome : String} (h : outcome ∈ outcomes) :
    outcomeFromStatus (toolStatusFromOutcome outcome) = outcome ↔ outcome ≠ "denied" := by
  have hall : ∀ o ∈ outcomes, outcomeFromStatus (toolStatusFromOutcome o) = o ↔ o ≠ "denied" := by
    decide +kernel
  exact hall outcome h

/-! ### The calls of a restored turn -/

theorem restoredId_inj {a b : ToolInvocationSummary} : restoredId a = restoredId b ↔ a.stepId = b.stepId := by
  constructor
  · intro h
    have hdigits : a.stepId.repr.toList = b.stepId.repr.toList := by
      have := congrArg String.toList h
      rw [restoredId, restoredId, String.toList_append, String.toList_append] at this
      exact List.append_cancel_left this
    rw [Nat.toList_repr, Nat.toList_repr] at hdigits
    rw [← Nat.ofDigitChars_ten_toDigits (n := a.stepId), hdigits, Nat.ofDigitChars_ten_toDigits]
  · intro h
    rw [restoredId, restoredId, h]

def restoredCalls (step : ℕ) : List ToolInvocationSummary → List (String × OpenCall)
  | [] => []
  | invocation :: rest =>
    (restoredId invocation,
      ⟨max invocation.stepId (saturatingSucc step), invocation.name,
        toolStatusFromOutcome invocation.outcome⟩)
      :: restoredCalls (max invocation.stepId (saturatingSucc step)) rest

theorem keys_restoredCalls (step : ℕ) (invocations : List ToolInvocationSummary) :
    keys (restoredCalls step invocations) = invocations.map restoredId := by
  induction invocations generalizing step with
  | nil => rfl
  | cons invocation rest ih =>
    rw [List.map_cons, ← ih]
    rfl

theorem nodup_restoredIds :
    (invocations.map restoredId).Nodup ↔ (invocations.map ToolInvocationSummary.stepId).Nodup := by
  rw [List.Nodup, List.Nodup, List.pairwise_map, List.pairwise_map]
  exact List.Pairwise.iff fun a b => not_congr restoredId_inj

theorem extract_invocationEntries {step : ℕ} (hkeys : (keys calls ++ invocations.map restoredId).Nodup) :
    (invocationEntries step invocations).foldl extractEntry (calls, []) =
      (calls ++ restoredCalls step invocations, []) := by
  induction invocations generalizing step calls with
  | nil => exact Prod.ext (List.append_nil _).symm rfl
  | cons invocation rest ih =>
    rw [List.map_cons, List.append_cons] at hkeys
    have hnew : restoredId invocation ∉ keys calls := by
      intro hmem
      have hfirst := (List.nodup_append.mp hkeys).1
      exact (List.nodup_append.mp hfirst).2.2 _ hmem _ (List.mem_singleton_self _) rfl
    have hinsert := insertLast_of_notMem hnew
      (⟨max invocation.stepId (saturatingSucc step), invocation.name,
        toolStatusFromOutcome invocation.outcome⟩ : OpenCall)
    show List.foldl extractEntry (insertLast (restoredId invocation) _ calls, []) _ = _
    rw [hinsert, ih, List.append_assoc]
    · rfl
    · rw [keys, List.map_append]
      exact hkeys

theorem callEnd_invocationEntries (id : String) (step : ℕ) (invocations : List ToolInvocationSummary) :
    callEnd id (invocationEntries step invocations) =
      if id ∈ invocations.map restoredId then .replaced else .unanswered := by
  induction invocations generalizing step with
  | nil => rfl
  | cons invocation rest ih =>
    rw [invocationEntries, callEnd, ih, List.map_cons]
    by_cases h : restoredId invocation = id
    · rw [if_pos h, if_pos (h ▸ List.mem_cons_self)]
    · rw [if_neg h]
      simp only [List.mem_cons, Ne.symm h, false_or]

/-- An id that comes twice loses a call. -/
theorem length_ended_invocationEntries (step : ℕ) (invocations : List ToolInvocationSummary) :
    (endedCalls (invocationEntries step invocations)).length ≤ invocations.length ∧
      ((endedCalls (invocationEntries step invocations)).length = invocations.length →
        (invocations.map restoredId).Nodup) := by
  induction invocations generalizing step with
  | nil => exact ⟨le_rfl, fun _ => List.nodup_nil⟩
  | cons invocation rest ih =>
    obtain ⟨hle, hnodup⟩ := ih (max invocation.stepId (saturatingSucc step))
    have hend := callEnd_invocationEntries (restoredId invocation)
      (max invocation.stepId (saturatingSucc step)) rest
    rw [invocationEntries, endedCalls, List.length_append, List.length_cons]
    rw [hend]
    split
    · refine ⟨?_, fun h => ?_⟩
      · simp only [OpenCall.ended, Option.toList_none, List.length_nil]
        omega
      · simp only [OpenCall.ended, Option.toList_none, List.length_nil] at h
        omega
    · rename_i hnew
      simp only [OpenCall.ended, Option.toList_some, List.length_singleton]
      refine ⟨by omega, fun h => List.nodup_cons.mpr ⟨hnew, hnodup (by omega)⟩⟩

/-! ### Where the restored calls stand -/

def restoredStepId (turnIndex : ℕ) (calls : List ToolInvocationSummary) (call : ToolInvocationSummary) : ℕ :=
  max call.stepId (min (turnIndex * 1000 + 2 + rank ToolInvocationSummary.stepId calls call) u64Max)

def restoredCall (turnIndex : ℕ) (calls : List ToolInvocationSummary)
    (call : ToolInvocationSummary) : OpenCall :=
  ⟨restoredStepId turnIndex calls call, call.name, toolStatusFromOutcome call.outcome⟩

theorem add_le_getElem (h : invocations.Pairwise fun a b => a.stepId < b.stepId) {j : ℕ}
    (hj : j < invocations.length) : (invocations[0]).stepId + j ≤ invocations[j].stepId := by
  induction j with
  | zero => exact le_rfl
  | succ j ih =>
    have hstep := List.pairwise_iff_getElem.mp h j (j + 1) (by omega) hj (Nat.lt_succ_self j)
    have := ih (by omega)
    omega

theorem restoredCalls_getElem {step : ℕ} (h : invocations.Pairwise fun a b => a.stepId < b.stepId)
    {j : ℕ} (hj : j < (restoredCalls step invocations).length) (hj' : j < invocations.length) :
    (restoredCalls step invocations)[j].2 =
      ⟨max invocations[j].stepId (min (step + 1 + j) u64Max), invocations[j].name,
        toolStatusFromOutcome invocations[j].outcome⟩ := by
  induction invocations generalizing step j with
  | nil => exact absurd hj' (Nat.not_lt_zero j)
  | cons invocation rest ih =>
    cases j with
    | zero => rfl
    | succ j =>
      have hrest : j < rest.length := Nat.lt_of_succ_lt_succ hj'
      have hle := add_le_getElem h hj'
      simp only [restoredCalls, List.getElem_cons_succ, List.getElem_cons_zero] at hle ⊢
      rw [ih (List.pairwise_cons.mp h).2 _ hrest, OpenCall.mk.injEq]
      refine ⟨?_, rfl, rfl⟩
      simp only [saturatingSucc]
      generalize u64Max = limit
      omega

theorem restoredCalls_eq (h : invocations.Pairwise fun a b => a.stepId < b.stepId) :
    (restoredCalls (saturatingSucc (baseStep turnIndex)) invocations).map Prod.snd =
      invocations.map (restoredCall turnIndex invocations) := by
  have hlength : (restoredCalls (saturatingSucc (baseStep turnIndex)) invocations).length =
      invocations.length := by
    have := congrArg List.length (keys_restoredCalls (saturatingSucc (baseStep turnIndex)) invocations)
    rw [keys, List.length_map, List.length_map] at this
    exact this
  refine List.ext_getElem (by rw [List.length_map, List.length_map, hlength]) fun j hj hj' => ?_
  rw [List.length_map] at hj hj'
  rw [List.getElem_map, List.getElem_map, restoredCalls_getElem h hj hj', restoredCall,
    restoredStepId, rank_getElem h hj', OpenCall.mk.injEq]
  refine ⟨?_, rfl, rfl⟩
  simp only [saturatingSucc, baseStep]
  generalize u64Max = limit
  omega

/-! ### Saving again -/

/-- What the evidence says of an invocation. -/
def ToolInvocationSummary.said (invocation : ToolInvocationSummary) : String × String :=
  (invocation.name, invocation.outcome)

/-- What a pulse keeps as evidence: everything but the step ids. -/
def TurnEvidenceState.said (evidence : TurnEvidenceState) : String × String × List String ×
    List CommandEvidence × PulseTokens × List (String × String) :=
  (evidence.input, evidence.response, evidence.changedFiles, evidence.commandHistory,
    evidence.tokens, evidence.toolInvocations.map ToolInvocationSummary.said)

def SameEvidence (state state' : TaskState) : Prop :=
  state'.pulses.map TurnEvidenceState.said = state.pulses.map TurnEvidenceState.said

/-- The calls of a turn survive being saved, restored and saved again: none was denied, each has a
step id of its own, and those whose restored step ids run out at the largest number say the same. -/
structure KeepsEvidence (turnIndex : ℕ) (calls : List ToolInvocationSummary) : Prop where
  notDenied : ∀ call ∈ calls, call.outcome ≠ "denied"
  distinct : (calls.map ToolInvocationSummary.stepId).Nodup
  saturated : ∀ a ∈ calls, ∀ b ∈ calls,
    restoredStepId turnIndex calls a = restoredStepId turnIndex calls b → a.said = b.said

theorem KeepsEvidence.of_perm {calls calls' : List ToolInvocationSummary}
    (hperm : calls.Perm calls') (h : KeepsEvidence turnIndex calls) :
    KeepsEvidence turnIndex calls' := by
  have hstep : ∀ a, restoredStepId turnIndex calls a = restoredStepId turnIndex calls' a :=
    fun a => by rw [restoredStepId, restoredStepId, rank_perm hperm]
  refine ⟨fun a ha => h.notDenied a (hperm.mem_iff.mpr ha), (hperm.map _).nodup_iff.mp h.distinct,
    fun a ha b hb hab => ?_⟩
  rw [← hstep, ← hstep] at hab
  exact h.saturated a (hperm.mem_iff.mpr ha) b (hperm.mem_iff.mpr hb) hab

theorem extractFinalText_invocationEntries (step : ℕ) (invocations : List ToolInvocationSummary) :
    extractFinalText (invocationEntries step invocations) = "" := by
  induction invocations generalizing step with
  | nil => rfl
  | cons invocation rest ih => exact ih _

theorem extractFinalText_restored (turnIndex : ℕ) (evidence : TurnEvidenceState) :
    extractFinalText (entriesFromEvidence turnIndex evidence) = evidence.response := by
  have hcalls := extractFinalText_invocationEntries (saturatingSucc (baseStep turnIndex))
    evidence.toolInvocations
  rw [extractFinalText] at hcalls
  rw [entriesFromEvidence, extractFinalText]
  split
  · rename_i hempty
    have hresponse : evidence.response = "" := by
      rw [Text.isEmpty, List.isEmpty_iff] at hempty
      exact String.toList_inj.mp hempty
    rw [hresponse]
    exact hcalls
  · rw [List.cons_append, List.singleton_append, List.filterMap_cons_none rfl,
      List.filterMap_cons_some (by exact if_pos rfl), String.join_cons, hcalls, String.append_empty]

theorem extract_restored (turnIndex : ℕ) (evidence : TurnEvidenceState) :
    (entriesFromEvidence turnIndex evidence).foldl extractEntry ([], []) =
      (invocationEntries (saturatingSucc (baseStep turnIndex)) evidence.toolInvocations).foldl
        extractEntry ([], []) := by
  rw [entriesFromEvidence]
  split <;> rfl

theorem endedCalls_restored (turnIndex : ℕ) (evidence : TurnEvidenceState) :
    endedCalls (entriesFromEvidence turnIndex evidence) =
      endedCalls (invocationEntries (saturatingSucc (baseStep turnIndex))
        evidence.toolInvocations) := by
  rw [entriesFromEvidence]
  split <;> rfl

theorem restoredStepId_mono {a b : ToolInvocationSummary} (h : a.stepId ≤ b.stepId) :
    restoredStepId turnIndex invocations a ≤ restoredStepId turnIndex invocations b := by
  have hrank : rank ToolInvocationSummary.stepId invocations a ≤
      rank ToolInvocationSummary.stepId invocations b := by
    refine (List.monotone_filter_right invocations fun c hc => ?_).length_le
    simp only [decide_eq_true_eq] at hc ⊢
    omega
  simp only [restoredStepId]
  generalize u64Max = limit
  omega

def IterationOrder.giving {α : Type} [DecidableEq α] (l l' : List α) (h : l'.Perm l) : IterationOrder α where
  list m := if m = l then l' else m
  perm m := by
    split
    · rename_i heq
      rw [heq]
      exact h
    · exact List.Perm.refl m

/-- What the second snapshot says of the invocations, when they are counted up. -/
theorem invocations_kept_iff {evidence : TurnEvidenceState}
    (hsorted : evidence.toolInvocations.Pairwise fun a b => a.stepId < b.stepId)
    (hout : ∀ call ∈ evidence.toolInvocations, call.outcome ∈ outcomes) :
    (∀ order, (extractToolInvocations order (entriesFromEvidence turnIndex evidence)).map
        ToolInvocationSummary.said = evidence.toolInvocations.map ToolInvocationSummary.said) ↔
      KeepsEvidence turnIndex evidence.toolInvocations := by
  generalize hcalls : evidence.toolInvocations = calls at hsorted hout ⊢
  have hdistinct : (calls.map ToolInvocationSummary.stepId).Nodup :=
    List.pairwise_map.mpr (hsorted.imp Nat.ne_of_lt)
  have hextract : ∀ order : IterationOrder OpenCall,
      (extractToolInvocations order (entriesFromEvidence turnIndex evidence)).map ToolInvocationSummary.said =
        (sortByKey OpenCall.stepId (order.list (calls.map (restoredCall turnIndex calls)))).map fun call =>
          (openInvocation call).said := by
    intro order
    have hfold : (invocationEntries (saturatingSucc (baseStep turnIndex)) calls).foldl extractEntry
        ([], []) = ([] ++ restoredCalls (saturatingSucc (baseStep turnIndex)) calls, []) :=
      extract_invocationEntries (nodup_restoredIds.mpr hdistinct)
    rw [extractToolInvocations, extract_restored, hcalls, hfold]
    simp only [List.nil_append]
    rw [restoredCalls_eq hsorted, sortByKey_map, List.map_map]
    rfl
  have hknown : (∀ order, (extractToolInvocations order
        (entriesFromEvidence turnIndex evidence)).map ToolInvocationSummary.said =
        calls.map ToolInvocationSummary.said) ↔
      ∀ l : List OpenCall, l.Perm (calls.map (restoredCall turnIndex calls)) →
        ((sortByKey OpenCall.stepId l).map fun call => (openInvocation call).said) =
          calls.map ToolInvocationSummary.said := by
    constructor
    · intro h l hperm
      have := h (IterationOrder.giving _ l hperm)
      rw [hextract] at this
      simp only [IterationOrder.giving, if_true] at this
      exact this
    · intro h order
      rw [hextract]
      exact h _ (order.perm _)
  have hrestored : (calls.map (restoredCall turnIndex calls)).Pairwise fun a b =>
      a.stepId ≤ b.stepId :=
    List.pairwise_map.mpr (hsorted.imp fun h => restoredStepId_mono (Nat.le_of_lt h))
  have hsaid : ∀ call ∈ calls, (openInvocation (restoredCall turnIndex calls call)).said =
      call.said ↔ call.outcome ≠ "denied" := by
    intro call hmem
    rw [← outcome_restored_iff (hout call hmem)]
    simp only [ToolInvocationSummary.said, openInvocation, restoredCall, Prod.mk.injEq, true_and]
  rw [hknown, sortByKey_known_iff, sortByKey_of_sorted hrestored, List.map_map, List.map_inj_left]
  constructor
  · rintro ⟨hsame, hties⟩
    refine ⟨fun call hmem => (hsaid call hmem).mp (hsame call hmem), hdistinct,
      fun a ha b hb hab => ?_⟩
    have := hties _ (List.mem_map_of_mem ha) _ (List.mem_map_of_mem hb) hab
    exact (hsame a ha).symm.trans (this.trans (hsame b hb))
  · intro h
    have hsame : ∀ call ∈ calls, (openInvocation (restoredCall turnIndex calls call)).said = call.said :=
      fun call hmem => (hsaid call hmem).mpr (h.notDenied call hmem)
    refine ⟨hsame, fun a' ha' b' hb' hab => ?_⟩
    obtain ⟨a, ha, rfl⟩ := List.mem_map.mp ha'
    obtain ⟨b, hb, rfl⟩ := List.mem_map.mp hb'
    exact (hsame a ha).trans ((h.saturated a ha b hb hab).trans (hsame b hb).symm)

/-- One pulse: the evidence is kept under every order of the hash map exactly when its invocations
are of the kind that survives. -/
theorem evidence_kept_iff {evidence : TurnEvidenceState}
    (hsorted : evidence.toolInvocations.Pairwise fun a b => a.stepId ≤ b.stepId)
    (hout : ∀ call ∈ evidence.toolInvocations, call.outcome ∈ outcomes) :
    (∀ order, (evidenceOfTurn order (turnFromEvidence turnIndex evidence)).said =
        evidence.said) ↔ KeepsEvidence turnIndex evidence.toolInvocations := by
  have hsaid : ∀ order, (evidenceOfTurn order (turnFromEvidence turnIndex evidence)).said =
      evidence.said ↔ (extractToolInvocations order (entriesFromEvidence turnIndex evidence)).map
        ToolInvocationSummary.said = evidence.toolInvocations.map ToolInvocationSummary.said := by
    intro order
    have hresponse := extractFinalText_restored turnIndex evidence
    simp only [TurnEvidenceState.said, evidenceOfTurn, turnFromEvidence, hresponse, Prod.mk.injEq, true_and]
  have hstrict : (evidence.toolInvocations.map ToolInvocationSummary.stepId).Nodup →
      evidence.toolInvocations.Pairwise fun a b => a.stepId < b.stepId := fun hnodup =>
    (hsorted.and (List.pairwise_map.mp hnodup)).imp fun h => Nat.lt_of_le_of_ne h.1 h.2
  simp only [hsaid]
  constructor
  · intro h
    -- as many invocations come back as there are different step ids
    have hlength := congrArg List.length (h (IterationOrder.given OpenCall))
    rw [List.length_map, List.length_map,
      (extractToolInvocations_perm _ _).length_eq, endedCalls_restored] at hlength
    have hnodup := nodup_restoredIds.mp ((length_ended_invocationEntries _ _).2 hlength)
    exact (invocations_kept_iff (hstrict hnodup) hout).mp h
  · intro h
    exact (invocations_kept_iff (hstrict h.distinct) hout).mpr h

/-- **Saving, restoring and saving again** keeps the evidence, whatever order the hash maps have,
exactly when of the calls of each turn none was denied, all have step ids of their own, and those
whose restored step ids run out at the largest number say the same. -/
theorem keepsEvidence_iff (order : ℕ → IterationOrder OpenCall) (record : TaskRecord) :
    (∀ order', SameEvidence (persistableSnapshot order record)
        (persistableSnapshot order' (restoreFromSnapshot (persistableSnapshot order record)))) ↔
      ∀ i (h : i < record.doc.completedTurns.length),
        KeepsEvidence i (endedCalls record.doc.completedTurns[i].entries) := by
  have hturn : ∀ i (h : i < record.doc.completedTurns.length),
      (∀ order', (evidenceOfTurn order' (turnFromEvidence i
          (evidenceOfTurn (order i) record.doc.completedTurns[i]))).said =
        (evidenceOfTurn (order i) record.doc.completedTurns[i]).said) ↔
      KeepsEvidence i (endedCalls record.doc.completedTurns[i].entries) := by
    intro i h
    have hperm := extractToolInvocations_perm (order i) record.doc.completedTurns[i].entries
    refine (evidence_kept_iff (extractToolInvocations_sorted _ _) fun call hmem => ?_).trans
      ⟨KeepsEvidence.of_perm hperm, KeepsEvidence.of_perm hperm.symm⟩
    exact outcome_mem_of_ended call (hperm.mem_iff.mp hmem)
  have hsame : ∀ order', SameEvidence (persistableSnapshot order record)
        (persistableSnapshot order' (restoreFromSnapshot (persistableSnapshot order record))) ↔
      ∀ i (h : i < record.doc.completedTurns.length),
        (evidenceOfTurn (order' i) (turnFromEvidence i
            (evidenceOfTurn (order i) record.doc.completedTurns[i]))).said =
          (evidenceOfTurn (order i) record.doc.completedTurns[i]).said := by
    intro order'
    simp only [SameEvidence, persistableSnapshot, restoreFromSnapshot, List.ext_getElem_iff,
      List.length_map, List.length_mapIdx, List.getElem_map, List.getElem_mapIdx, true_and]
    exact ⟨fun h i hi => h i hi hi, fun h i hi _ => h i hi⟩
  simp only [hsame]
  constructor
  · intro h i hi
    exact (hturn i hi).mp fun order' => h (fun _ => order') i hi
  · intro h order' i hi
    exact (hturn i hi).mpr (h i hi) (order' i)

def deniedRecord : TaskRecord :=
  { id := "t"
    doc := {
      info := {}
      completedTurns := [{
        turnIndex := 0, input := "a"
        entries := [.userInput 1 "a", .toolCall 2 "c" "write_file" (.object []) .error,
          .toolResult 3 "c" none "Tool execution denied" true]
        outcome := .completed, changedFiles := [], commandHistory := [], tokens := {}
        startedAtMs := 0, completedAtMs := 0, ttftMs := none, timings := none }] } }

def deniedState : TaskState := persistableSnapshot (fun _ => .given OpenCall) deniedRecord

def deniedStateAgain : TaskState :=
  persistableSnapshot (fun _ => .given OpenCall) (restoreFromSnapshot deniedState)

/-- The denied call is saved as denied, and as an error after it has been restored. -/
theorem denied_becomes_error :
    deniedState.pulses.map (fun evidence => evidence.toolInvocations.map (·.said)) =
        [[("write_file", "denied")]] ∧
      deniedStateAgain.pulses.map (fun evidence => evidence.toolInvocations.map (·.said)) =
        [[("write_file", "error")]] ∧
      ¬ SameEvidence deniedState deniedStateAgain := by
  have hfirst : deniedState.pulses.map (fun evidence => evidence.toolInvocations.map (·.said)) =
      [[("write_file", "denied")]] := by decide +kernel
  have hagain : deniedStateAgain.pulses.map (fun evidence =>
      evidence.toolInvocations.map (·.said)) = [[("write_file", "error")]] := by decide +kernel
  refine ⟨hfirst, hagain, fun h => ?_⟩
  have hsaid := congrArg (List.map fun said => said.2.2.2.2.2) h
  rw [List.map_map, List.map_map] at hsaid
  have : [[("write_file", "error")]] = [[("write_file", "denied")]] :=
    hagain.symm.trans (hsaid.trans hfirst)
  exact absurd this (by decide)

end Vexcoder.Task

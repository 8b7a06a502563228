import Vexcoder.Conversation.Frames
import Vexcoder.Conversation.HistoryCuts

/-!
# Tool calls and their results

A history is paired when each message of the model that calls tools is followed by the message with
the results of these calls, and results stand nowhere else.  `pairStep` checks this from the front:
its state is the list of ids that the next message owes results for.

The code keeps the pairing but for two slips: the nudge at a repeated round leaves the calls of the
round without results, and a cut of the history may fall between calls and their results where no
user request is left to cut at.  `PairingSafe` says that a step takes neither.
-/

namespace Vexcoder.Conversation

open Base Lib Lib.Emitter Vexcoder.Runtime Vexcoder.Task ApiMessage

/-- Every message that calls tools is followed by the results of these calls, in their order, and no
result stands without its call in the message before. -/
structure ToolPairing (messages : List ApiMessage) : Prop where
  answered : ∀ i message, messages[i]? = some message → message.role = "assistant" →
    message.toolUseIds ≠ [] → ∃ next, messages[i + 1]? = some next ∧ next.role = "user" ∧
      next.toolResultIds = message.toolUseIds
  called : ∀ i message, messages[i]? = some message → ∀ id ∈ message.toolResultIds,
    ∃ j previous, i = j + 1 ∧ messages[j]? = some previous ∧ id ∈ previous.toolUseIds

/-- One message against the ids it owes results for; the ids that the next one owes. -/
def pairStep (owed : List String) (message : ApiMessage) : Option (List String) :=
  if message.toolResultIds = owed ∧ (owed = [] ∨ message.role = "user") then
    some message.toolUseIds
  else none

/-- The ids that the history owes results for; `none` when it is not paired. -/
def owes (messages : List ApiMessage) : Option (List String) := watch pairStep [] messages

/-! ### The check of a history -/

variable {message : ApiMessage} {messages : List ApiMessage} {owed : List String}

theorem pairStep_of_ids {message' : ApiMessage} (hrole : message'.role = message.role)
    (huse : message'.toolUseIds = message.toolUseIds)
    (hresult : message'.toolResultIds = message.toolResultIds) (owed : List String) :
    pairStep owed message' = pairStep owed message := by
  rw [pairStep, pairStep, hrole, huse, hresult]

theorem owes_snoc (h : owes messages = some owed) (message : ApiMessage) :
    owes (messages ++ [message]) = pairStep owed message := by
  rw [owes, watch_append]
  rw [owes] at h
  rw [h, Option.bind_some, watch]
  cases pairStep owed message <;> rfl

theorem owes_snoc_plain (h : owes messages = some []) (huse : message.toolUseIds = [])
    (hresult : message.toolResultIds = []) : owes (messages ++ [message]) = some [] := by
  rw [owes_snoc h, pairStep, hresult, huse]
  exact if_pos ⟨rfl, Or.inl rfl⟩

theorem owes_snoc_text (h : owes messages = some []) {role text : String} {cacheHint : Option String} :
    owes (messages ++ [{ role, content := .text text, cacheHint }]) = some [] :=
  owes_snoc_plain h rfl rfl

theorem owes_map {f : ApiMessage → ApiMessage} (hrole : ∀ m, (f m).role = m.role)
    (huse : ∀ m, (f m).toolUseIds = m.toolUseIds)
    (hresult : ∀ m, (f m).toolResultIds = m.toolResultIds) (messages : List ApiMessage)
    (owed : List String) : watch pairStep owed (messages.map f) = watch pairStep owed messages := by
  induction messages generalizing owed with
  | nil => rfl
  | cons message messages ih =>
    rw [List.map_cons, watch, watch, pairStep_of_ids (hrole _) (huse _) (hresult _)]
    cases pairStep owed message with
    | none => rfl
    | some owed' => exact ih owed'

theorem owes_drop (h : owes messages = some owed) {k : ℕ} (hk : messages[k]? = some message)
    (hresult : message.toolResultIds = []) : owes (messages.drop k) = some owed := by
  obtain ⟨hlt, hget⟩ := List.getElem?_eq_some_iff.mp hk
  have hsplit : messages.drop k = message :: messages.drop (k + 1) := by
    rw [List.drop_eq_getElem_cons hlt, hget]
  rw [owes, ← List.take_append_drop k messages, watch_append] at h
  obtain ⟨owed', -, hrest⟩ := Option.bind_eq_some_iff.mp h
  rw [hsplit] at hrest
  rw [owes, hsplit]
  unfold watch at hrest ⊢
  -- nothing is owed in front of a message without results
  have howed : owed' = [] := by
    by_contra hne
    rw [pairStep, hresult, if_neg (fun hand => hne hand.1.symm)] at hrest
    cases hrest
  rwa [howed] at hrest

theorem watch_succ {last : List String} (h : watch pairStep owed messages = some last) {i : ℕ}
    (hi : messages[i]? = some message) :
    (∃ next, messages[i + 1]? = some next ∧ next.toolResultIds = message.toolUseIds ∧
      (message.toolUseIds = [] ∨ next.role = "user")) ∨
      (messages[i + 1]? = none ∧ last = message.toolUseIds) := by
  induction messages generalizing owed i with
  | nil => cases hi
  | cons first rest ih =>
    unfold watch at h
    split at h
    · cases h
    rename_i owed' hstep
    cases i with
    | succ i =>
      exact ih h hi
    | zero =>
      obtain rfl := Option.some.inj hi
      have howed : owed' = first.toolUseIds := by
        unfold pairStep at hstep
        split at hstep
        · exact (Option.some.inj hstep).symm
        · cases hstep
      subst howed
      cases rest with
      | nil => exact Or.inr ⟨rfl, (Option.some.inj h).symm⟩
      | cons next rest =>
        left
        refine ⟨next, rfl, ?_⟩
        unfold watch at h
        split at h
        · cases h
        rename_i hnext
        unfold pairStep at hnext
        split at hnext
        · rename_i hand
          exact hand
        · cases hnext

/-- A history that owes nothing is paired. -/
theorem toolPairing_of_owes (h : owes messages = some []) : ToolPairing messages := by
  refine ⟨fun i message hi _ huse => ?_, fun i message hi id hid => ?_⟩
  · rcases watch_succ h hi with ⟨next, hnext, hresult, hrole⟩ | ⟨-, hlast⟩
    · exact ⟨next, hnext, hrole.resolve_left huse, hresult⟩
    · exact absurd hlast.symm huse
  · cases i with
    | zero =>
      cases messages with
      | nil => cases hi
      | cons first rest =>
        obtain rfl := Option.some.inj hi
        unfold owes watch at h
        split at h
        · cases h
        rename_i hstep
        unfold pairStep at hstep
        split at hstep
        · rename_i hand
          rw [hand.1] at hid
          cases hid
        · cases hstep
    | succ j =>
      have hj : j < messages.length := by
        have := (List.getElem?_eq_some_iff.mp hi).1
        omega
      refine ⟨j, messages[j], rfl, List.getElem?_eq_getElem hj, ?_⟩
      rcases watch_succ h (List.getElem?_eq_getElem hj) with ⟨next, hnext, hresult, -⟩ | ⟨hnone, -⟩
      · rw [hi] at hnext
        obtain rfl := Option.some.inj hnext
        rwa [← hresult]
      · rw [hi] at hnone
        cases hnone

/-! ### What the history functions keep -/

theorem toolUseId?_condense (block : ContentBlock) : block.condense.toolUseId? = block.toolUseId? := by
  cases block <;> rfl

theorem toolResultId?_condense (block : ContentBlock) :
    block.condense.toolResultId? = block.toolResultId? := by
  cases block <;> rfl

section Condense

variable (isResults : String → Bool) (message : ApiMessage)

theorem role_condense : (message.condense isResults).role = message.role := by
  unfold condense
  split
  · rfl
  · split
    · rfl
    · split <;> rfl

theorem filterMap_blocks_condense {id? : ContentBlock → Option String}
    (h : ∀ block, id? block.condense = id? block) :
    (message.condense isResults).blocks.filterMap id? = message.blocks.filterMap id? := by
  obtain ⟨role, content, cacheHint⟩ := message
  unfold condense
  split
  · rfl
  cases content with
  | text text => dsimp only; split <;> rfl
  | blocks blocks => simp only [ApiMessage.blocks, List.filterMap_map, Function.comp_def, h]

theorem toolUseIds_condense : (message.condense isResults).toolUseIds = message.toolUseIds :=
  filterMap_blocks_condense isResults message toolUseId?_condense

theorem toolResultIds_condense : (message.condense isResults).toolResultIds = message.toolResultIds :=
  filterMap_blocks_condense isResults message toolResultId?_condense

end Condense

theorem isUserRequest_condense (h : isUserRequest message = true) :
    isUserRequest (message.condense textProtocolToolResultMessage) = true := by
  obtain ⟨role, content, cacheHint⟩ := message
  unfold condense
  split
  · exact h
  cases content with
  | text text =>
    have hnone : textProtocolToolResultMessage text = false := by
      have hand := h
      simp only [isUserRequest, messageContainsToolResult, Bool.and_eq_true, Bool.not_eq_true'] at hand
      exact hand.2
    dsimp only
    rw [if_neg (by rw [hnone]; decide)]
    exact h
  | blocks blocks =>
    have hblock : ∀ block : ContentBlock, block.condense.isToolResult = block.isToolResult := by
      intro block
      cases block <;> rfl
    simp only [isUserRequest, messageContainsToolResult, List.any_map, Function.comp_def, hblock]
      at h ⊢
    exact h

theorem owes_condense (isResults : String → Bool) (messages : List ApiMessage) (owed : List String) :
    watch pairStep owed (messages.map (ApiMessage.condense isResults)) =
      watch pairStep owed messages :=
  owes_map (role_condense isResults) (toolUseIds_condense isResults)
    (toolResultIds_condense isResults) messages owed

theorem owes_condenseOld (messages : List ApiMessage) (keepTurns : ℕ) :
    owes (condenseOldToolResults messages keepTurns) = owes messages := by
  unfold condenseOldToolResults
  dsimp only
  split
  · rfl
  · rw [owes, watch_append, owes_condense, ← watch_append, List.take_append_drop]
    rfl

theorem owes_prependSummary (summaryText : String) (messages : List ApiMessage) :
    owes (prependSummary summaryText messages) = owes messages := by
  cases messages with
  | nil => rfl
  | cons first rest =>
    obtain ⟨role, content, cacheHint⟩ := first
    unfold prependSummary
    dsimp only
    split
    · cases content with
      | text text =>
        rfl
      | blocks blocks => rfl
    · rfl

/-- Proactive compaction cuts in front of a user request. -/
theorem owes_runProactiveCompaction (h : owes messages = some []) (toJson : Value → List Char)
    (config : CompactionConfig) (isLocalEndpoint : Bool) (contextWindowTokens : ℕ)
    (requiresToolEvidence : Bool) :
    owes (runProactiveCompaction toJson config isLocalEndpoint messages contextWindowTokens
      requiresToolEvidence).1 = some [] := by
  rcases runProactiveCompaction_fst toJson config isLocalEndpoint messages contextWindowTokens
    requiresToolEvidence with heq | ⟨keepRecentTurns, summaryText, heq⟩
  · rw [heq, h]
  · rw [heq]
    rcases compactWithSummary_cases messages keepRecentTurns summaryText with
      heq' | ⟨boundary, message, hmessage, hrequest, heq'⟩
    · rw [heq', h]
    · rw [heq', owes_prependSummary]
      exact owes_drop h hmessage (toolResultIds_of_isUserRequest hrequest)

/-- Pruning cuts at a user request or at a message without results: there is a user request at or
behind the target and no anchor near below it, or the message at the target has no results. -/
def PruneSafe (messages : List ApiMessage) (maxApiMessages preserveIndex : ℕ) : Prop :=
  messages.length ≤ maxApiMessages ∨
    (¬ PruneAnchored messages maxApiMessages preserveIndex ∧
      ∃ message ∈ messages.drop (messages.length - maxApiMessages), isUserRequest message = true) ∨
    ∀ message ∈ messages[messages.length - maxApiMessages]?, message.toolResultIds = []
  deriving Decidable

theorem owes_prune (h : owes messages = some []) {maxApiMessages : ℕ} (hmax : 0 < maxApiMessages)
    {preserveIndex : ℕ} (hsafe : PruneSafe messages maxApiMessages preserveIndex) :
    owes (pruneMessageHistoryPreserving messages maxApiMessages preserveIndex).1 = some [] := by
  rw [pruneMessageHistoryPreserving_fst]
  split
  · exact h
  rename_i hlen
  obtain ⟨-, hlt, hcases⟩ := pruneKeepStart_cases messages maxApiMessages preserveIndex hmax
    (Nat.not_le.mp hlen)
  rcases hcases with ⟨hcut, hwhy⟩ | ⟨message, hmessage, hrequest⟩
  · have hclean : ∀ message, messages[messages.length - maxApiMessages]? = some message →
        message.toolResultIds = [] := by
      rcases hsafe with hshort | ⟨hanchored, message, hmem, hrequest⟩ | hclean
      · exact absurd hshort hlen
      · rcases hwhy with hanchor | hnone
        · exact absurd hanchor hanchored
        · rw [hnone message hmem] at hrequest
          cases hrequest
      · exact hclean
    rw [hcut] at hlt ⊢
    exact owes_drop h (List.getElem?_eq_getElem hlt) (hclean _ (List.getElem?_eq_getElem hlt))
  · exact owes_drop h hmessage (toolResultIds_of_isUserRequest hrequest)

/-- An overflow compaction cuts at a user request or at a message without results: at the preserved
message when it lies below the target, else at the first user request at or behind the target, or
at the target. -/
def OverflowSafe (messages : List ApiMessage) (keepMessages preserveIndex : ℕ) : Prop :=
  let target := messages.length - keepMessages
  let preserved := min preserveIndex (messages.length - 1)
  messages.length ≤ keepMessages ∨
    (preserved < target ∧ ∀ message ∈ messages[preserved]?, message.toolResultIds = []) ∨
    (target ≤ preserved ∧ ((∃ message ∈ messages.drop target, isUserRequest message = true) ∨
      ∀ message ∈ messages[target]?, message.toolResultIds = []))
  deriving Decidable

theorem owes_overflow (h : owes messages = some []) {keepMessages : ℕ} (hkeep : 0 < keepMessages)
    {preserveIndex : ℕ} (hsafe : OverflowSafe messages keepMessages preserveIndex) :
    owes (compactForContextOverflowPreserving messages keepMessages preserveIndex).1 = some [] := by
  have hcondensed : owes (condenseAllToolResultsForOverflow messages) = some [] := by
    rw [owes, condenseAllToolResultsForOverflow, owes_condense]
    exact h
  -- the cut, at a message of the history that has been condensed
  have hdrop : ∀ k message, messages[k]? = some message → message.toolResultIds = [] →
      owes ((condenseAllToolResultsForOverflow messages).drop k) = some [] := by
    intro k message hk hresult
    have hk' : (condenseAllToolResultsForOverflow messages)[k]? =
        some (message.condense textProtocolToolResultMessage) := by
      rw [condenseAllToolResultsForOverflow, List.getElem?_map, hk]
      rfl
    exact owes_drop hcondensed hk' (by rw [toolResultIds_condense, hresult])
  rw [compactForContextOverflowPreserving_fst, Nat.max_eq_left hkeep]
  split
  · exact hcondensed
  rename_i hlen
  obtain ⟨hlt, hcases⟩ := overflowKeepStart_cases (condenseAllToolResultsForOverflow messages)
    keepMessages (min preserveIndex (messages.length - 1)) hkeep
    (by rw [length_condenseAll]; omega)
  rw [length_condenseAll] at hlt hcases
  rcases hcases with ⟨hbelow, hcut⟩ | ⟨habove, ⟨hcut, hnone⟩ | ⟨message, hmessage, hrequest⟩⟩
  · rw [hcut] at hlt ⊢
    rcases hsafe with hshort | ⟨-, hclean⟩ | ⟨hge, -⟩
    · exact absurd hshort hlen
    · exact hdrop _ _ (List.getElem?_eq_getElem hlt) (hclean _ (List.getElem?_eq_getElem hlt))
    · omega
  · rw [hcut] at hlt ⊢
    rcases hsafe with hshort | ⟨hbelow, -⟩ | ⟨-, ⟨message, hmem, hrequest⟩ | hclean⟩
    · exact absurd hshort hlen
    · omega
    · have hmem' : message.condense textProtocolToolResultMessage ∈
          (condenseAllToolResultsForOverflow messages).drop (messages.length - keepMessages) := by
        rw [condenseAllToolResultsForOverflow, ← List.map_drop]
        exact List.mem_map.mpr ⟨message, hmem, rfl⟩
      have := hnone _ hmem'
      rw [isUserRequest_condense hrequest] at this
      cases this
    · exact hdrop _ _ (List.getElem?_eq_getElem hlt) (hclean _ (List.getElem?_eq_getElem hlt))
  · exact owes_drop hcondensed hmessage (toolResultIds_of_isUserRequest hrequest)

end Vexcoder.Conversation

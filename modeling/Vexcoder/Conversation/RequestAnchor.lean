import Vexcoder.Conversation.HistorySuffix

/-!
# The message that an anchor designates

`turn_user_anchor_index` is to be the index of the user's message in the history.  Messages are only
added behind it and cut off in front, so that its place is known by the number of messages behind it.
For each routine that shifts the history: when the index it leaves designates the same message.
-/

namespace Vexcoder.Conversation

open Base

/-- What the history makes of a text of the user: it is condensed where it looks like tool results,
and a summary may come in front of it. -/
inductive Rewritten (original : String) : String → Prop
  | same : Rewritten original original
  | condensed {text : String} (h : Rewritten original text)
      (hlooks : textProtocolToolResultMessage text = true) :
      Rewritten original (condenseTextProtocolToolResults text)
  | summarized {text : String} (h : Rewritten original text) (summaryText : String) :
      Rewritten original (summarizedRequest summaryText text)

/-- The message at the index is the user's, with `newer` messages behind it. -/
structure Designates (user : ApiMessage) (newer anchor : ℕ) (messages : List ApiMessage) : Prop where
  position : anchor + newer + 1 = messages.length
  message : ∃ original text, user.content = .text original ∧ Rewritten original text ∧
    messages[anchor]? = some { user with content := .text text }

/-- The index designates the user's message, or that is gone, with `bound` newer messages at least. -/
def AnchorHolds (bound : ℕ) (user : ApiMessage) (newer anchor : ℕ) (messages : List ApiMessage) :
    Prop :=
  Designates user newer anchor messages ∨ messages.length ≤ newer ∧ bound ≤ newer

/-- Among the messages from `start` to `stop` is one that the history may be cut in front of. -/
def RequestBetween (messages : List ApiMessage) (start stop : ℕ) : Prop :=
  ((messages.take (stop + 1)).drop start).any isUserRequest = true
  deriving Decidable

theorem RequestBetween.exists {messages : List ApiMessage} {start stop : ℕ}
    (h : RequestBetween messages start stop) :
    ∃ i message, i ≤ stop ∧ (messages.drop start)[i - start]? = some message ∧ start ≤ i ∧
      isUserRequest message = true := by
  obtain ⟨message, hmem, hrequest⟩ := List.any_eq_true.mp h
  obtain ⟨k, hk⟩ := List.mem_iff_getElem?.mp hmem
  rw [List.getElem?_drop, List.getElem?_take] at hk
  split at hk
  · refine ⟨start + k, message, by omega, ?_, Nat.le_add_right start k, hrequest⟩
    rw [List.getElem?_drop, Nat.add_sub_cancel_left]
    exact hk
  · cases hk

section Anchor

variable {bound newer anchor : ℕ} {user : ApiMessage} {messages : List ApiMessage}

theorem Designates.lt (h : Designates user newer anchor messages) : anchor < messages.length := by
  have := h.position
  omega

theorem AnchorHolds.push (h : AnchorHolds bound user newer anchor messages) (message : ApiMessage) :
    AnchorHolds bound user (newer + 1) anchor (messages ++ [message]) := by
  rcases h with hdes | ⟨hgone, hbound⟩
  · obtain ⟨original, text, horiginal, hrewritten, htext⟩ := hdes.message
    refine Or.inl ⟨?_, original, text, horiginal, hrewritten, ?_⟩
    · rw [List.length_append, List.length_singleton, ← hdes.position]
      omega
    · rw [List.getElem?_append_left hdes.lt]
      exact htext
  · refine Or.inr ⟨?_, Nat.le_succ_of_le hbound⟩
    rw [List.length_append]
    exact Nat.succ_le_succ hgone

theorem Designates.drop (h : Designates user newer anchor messages) {cut : ℕ} (hcut : cut ≤ anchor) :
    Designates user newer (anchor - cut) (messages.drop cut) := by
  obtain ⟨original, text, horiginal, hrewritten, htext⟩ := h.message
  have hposition := h.position
  refine ⟨?_, original, text, horiginal, hrewritten, ?_⟩
  · rw [List.length_drop]
    omega
  · rw [List.getElem?_drop, Nat.add_sub_cancel' hcut]
    exact htext

theorem AnchorHolds.shorter {anchor' : ℕ} {kept : List ApiMessage}
    (h : messages.length ≤ newer ∧ bound ≤ newer) (hlen : kept.length ≤ messages.length) :
    AnchorHolds bound user newer anchor' kept := Or.inr ⟨hlen.trans h.1, h.2⟩

theorem Designates.condense (h : Designates user newer anchor messages) :
    Designates user newer anchor (condenseAllToolResultsForOverflow messages) := by
  obtain ⟨original, text, horiginal, hrewritten, htext⟩ := h.message
  refine ⟨by rw [length_condenseAll]; exact h.position, ?_⟩
  have hget : (condenseAllToolResultsForOverflow messages)[anchor]? =
      some (ApiMessage.condense textProtocolToolResultMessage { user with content := .text text }) := by
    rw [condenseAllToolResultsForOverflow, List.getElem?_map, htext]
    rfl
  rw [hget]
  unfold ApiMessage.condense
  split
  · exact ⟨original, text, horiginal, hrewritten, rfl⟩
  dsimp only
  split
  · rename_i hlooks
    exact ⟨original, _, horiginal, hrewritten.condensed hlooks, rfl⟩
  · exact ⟨original, text, horiginal, hrewritten, rfl⟩

/-- Pruning reads an index behind the end as that of the last message. -/
theorem AnchorHolds.clamp (h : AnchorHolds bound user newer anchor messages) :
    AnchorHolds bound user newer (min anchor (messages.length - 1)) messages := by
  rcases h with hdes | hgone
  · have hlt := hdes.lt
    rw [Nat.min_eq_left (by omega)]
    exact Or.inl hdes
  · exact Or.inr hgone

/-! ### Pruning -/

theorem scanKeepStart_le (anchor? : Option ℕ) (start : ℕ) (messages : List ApiMessage) {i : ℕ}
    {message : ApiMessage} (hi : messages[i]? = some message) (hrequest : isUserRequest message = true) :
    scanKeepStart anchor? start messages ≤ start + i := by
  induction messages generalizing start i with
  | nil => cases hi
  | cons first rest ih =>
    rw [scanKeepStart]
    split
    · exact Nat.le_add_right _ _
    split
    · exact Nat.le_add_right _ _
    rename_i hfirst
    cases i with
    | zero =>
      obtain rfl := Option.some.inj hi
      exact absurd hrequest hfirst
    | succ i =>
      have hle := ih (start + 1) hi
      omega

theorem RequestBetween.scanKeepStart_le {start stop : ℕ} (h : RequestBetween messages start stop) :
    scanKeepStart none start (messages.drop start) ≤ stop := by
  obtain ⟨i, message, hle, hget, hstart, hrequest⟩ := h.exists
  have hscan := Conversation.scanKeepStart_le none start (messages.drop start) hget hrequest
  omega

theorem length_pruned_le (messages : List ApiMessage) (maxApiMessages preserveIndex : ℕ) :
    (pruneMessageHistoryPreserving messages maxApiMessages preserveIndex).1.length ≤
      messages.length := by
  rw [pruneMessageHistoryPreserving_fst]
  split
  · exact Nat.le_refl _
  · rw [List.length_drop]
    exact Nat.sub_le _ _

variable {preserveIndex keepMessages : ℕ}

/-- Behind the target, pruning cuts no further than the preserved message if a request lies on the
way. -/
theorem pruneKeepStart_le {maxApiMessages : ℕ} (htarget : messages.length - maxApiMessages ≤ preserveIndex)
    (hrequest : RequestBetween messages (messages.length - maxApiMessages) preserveIndex) :
    pruneKeepStart messages maxApiMessages preserveIndex ≤ preserveIndex := by
  have hscan := hrequest.scanKeepStart_le
  have hfree : ¬ (preserveIndex < messages.length - maxApiMessages ∧
      messages.length - maxApiMessages - preserveIndex ≤ 2) := by omega
  unfold pruneKeepStart
  simp only [if_neg hfree]
  split <;> omega

/-- **Pruning** leaves the index at the user's message or removes that; it does the latter where at
least `maxApiMessages` newer messages exist. -/
theorem AnchorHolds.prune {maxApiMessages : ℕ} (hmax : 1 ≤ maxApiMessages)
    (h : AnchorHolds bound user newer (min anchor (messages.length - 1)) messages)
    (hsafe : maxApiMessages < messages.length →
      (newer < maxApiMessages → anchor < messages.length ∧
        RequestBetween messages (messages.length - maxApiMessages) anchor) ∧
        (maxApiMessages ≤ newer → bound ≤ newer)) :
    AnchorHolds bound user newer (pruneMessageHistoryPreserving messages maxApiMessages anchor).2
      (pruneMessageHistoryPreserving messages maxApiMessages anchor).1 := by
  rcases h with hdes | hgone
  · have hposition := hdes.position
    by_cases hlen : messages.length ≤ maxApiMessages
    · have hne : messages ≠ [] := List.ne_nil_of_length_pos (by omega)
      unfold pruneMessageHistoryPreserving
      rw [if_neg hne, if_pos hlen]
      exact Or.inl hdes
    · have hlong : maxApiMessages < messages.length := Nat.lt_of_not_le hlen
      rw [pruneMessageHistoryPreserving_of_lt messages maxApiMessages anchor hlong]
      by_cases hnewer : newer < maxApiMessages
      · obtain ⟨hlt, hrequest⟩ := (hsafe hlong).1 hnewer
        rw [Nat.min_eq_left (by omega)] at hdes hposition
        refine Or.inl (hdes.drop ?_)
        exact pruneKeepStart_le (by omega) hrequest
      · have htarget := (pruneKeepStart_cases messages maxApiMessages anchor hmax hlong).1
        refine Or.inr ⟨?_, (hsafe hlong).2 (Nat.le_of_not_lt hnewer)⟩
        rw [List.length_drop]
        omega
  · exact AnchorHolds.shorter hgone (length_pruned_le messages maxApiMessages anchor)

/-! ### Overflows -/

theorem length_overflow_le (messages : List ApiMessage) (keepMessages preserveIndex : ℕ) :
    (compactForContextOverflowPreserving messages keepMessages preserveIndex).1.length ≤
      messages.length := by
  rw [compactForContextOverflowPreserving_fst]
  split
  · rw [length_condenseAll]
  · rw [List.length_drop, length_condenseAll]
    exact Nat.sub_le _ _

theorem overflow_of_le (hlen : messages.length ≤ max keepMessages 1)
    (hpreserve : preserveIndex < messages.length) :
    compactForContextOverflowPreserving messages keepMessages preserveIndex =
      (condenseAllToolResultsForOverflow messages, preserveIndex) := by
  have hne : messages ≠ [] := by
    intro hnil
    rw [hnil] at hpreserve
    exact Nat.not_lt_zero _ hpreserve
  unfold compactForContextOverflowPreserving
  rw [if_neg hne]
  dsimp only
  rw [length_condenseAll, if_pos hlen, Nat.min_eq_left (by omega)]

theorem overflow_of_lt (hlen : max keepMessages 1 < messages.length)
    (hpreserve : preserveIndex < messages.length)
    (hcut : overflowKeepStart (condenseAllToolResultsForOverflow messages) (max keepMessages 1)
      preserveIndex ≤ preserveIndex) :
    compactForContextOverflowPreserving messages keepMessages preserveIndex =
      ((condenseAllToolResultsForOverflow messages).drop (overflowKeepStart
          (condenseAllToolResultsForOverflow messages) (max keepMessages 1) preserveIndex),
        preserveIndex - overflowKeepStart (condenseAllToolResultsForOverflow messages)
          (max keepMessages 1) preserveIndex) := by
  have hne : messages ≠ [] := by
    intro hnil
    rw [hnil] at hpreserve
    exact Nat.not_lt_zero _ hpreserve
  unfold compactForContextOverflowPreserving
  rw [if_neg hne]
  dsimp only
  rw [length_condenseAll, if_neg (by omega), Nat.min_eq_left (show preserveIndex ≤ messages.length - 1 by
    omega)]
  generalize overflowKeepStart (condenseAllToolResultsForOverflow messages) (max keepMessages 1)
    preserveIndex = cut at hcut
  split
  · rfl
  · rw [show cut = 0 by omega, List.drop_zero, Nat.sub_zero]

theorem condense_of_isUserRequest {message : ApiMessage} (h : isUserRequest message = true) :
    isUserRequest (ApiMessage.condense textProtocolToolResultMessage message) = true := by
  obtain ⟨hrole, hnone⟩ := Bool.and_eq_true_iff.mp h
  obtain ⟨role, content, cacheHint⟩ := message
  unfold ApiMessage.condense
  rw [if_neg (by simpa using hrole)]
  cases content with
  | text text =>
    have hplain : textProtocolToolResultMessage text = false := by
      simpa [messageContainsToolResult] using hnone
    dsimp only
    rw [hplain]
    exact h
  | blocks blocks =>
    have hkept : (blocks.map ContentBlock.condense).any ContentBlock.isToolResult =
        blocks.any ContentBlock.isToolResult := by
      rw [List.any_map]
      congr 1
      funext block
      cases block <;> rfl
    simp only [isUserRequest, messageContainsToolResult, hkept]
    exact h

theorem RequestBetween.condense {start stop : ℕ} (h : RequestBetween messages start stop) :
    RequestBetween (condenseAllToolResultsForOverflow messages) start stop := by
  obtain ⟨message, hmem, hrequest⟩ := List.any_eq_true.mp h
  refine List.any_eq_true.mpr ⟨ApiMessage.condense textProtocolToolResultMessage message, ?_,
    condense_of_isUserRequest hrequest⟩
  rw [condenseAllToolResultsForOverflow, ← List.map_take, ← List.map_drop]
  exact List.mem_map_of_mem hmem

/-- An overflow compaction that preserves the index cuts in front of it, or at it. -/
theorem overflowKeepStart_le (hlt : preserveIndex < messages.length)
    (hrequest : messages.length - keepMessages ≤ preserveIndex →
      RequestBetween messages (messages.length - keepMessages) preserveIndex) :
    overflowKeepStart messages keepMessages preserveIndex ≤ preserveIndex := by
  unfold overflowKeepStart
  by_cases hanchored : preserveIndex < messages.length - keepMessages
  · simp only [if_pos hanchored, scanKeepStart_anchor]
    rw [if_neg (by omega)]
  · have htarget : messages.length - keepMessages ≤ preserveIndex := Nat.le_of_not_lt hanchored
    have hscan := (hrequest htarget).scanKeepStart_le
    simp only [if_neg hanchored]
    split <;> omega

/-- **An overflow with preservation** leaves the index at the user's message. -/
theorem AnchorHolds.overflow (h : AnchorHolds bound user newer anchor messages)
    (hsafe : max keepMessages 1 < messages.length → newer < messages.length →
      messages.length - max keepMessages 1 ≤ anchor →
        RequestBetween messages (messages.length - max keepMessages 1) anchor) :
    AnchorHolds bound user newer
      (compactForContextOverflowPreserving messages keepMessages anchor).2
      (compactForContextOverflowPreserving messages keepMessages anchor).1 := by
  rcases h with hdes | hgone
  · by_cases hlen : messages.length ≤ max keepMessages 1
    · rw [overflow_of_le hlen hdes.lt]
      exact Or.inl hdes.condense
    · have hlong : max keepMessages 1 < messages.length := Nat.lt_of_not_le hlen
      have hposition := hdes.position
      have hcut : overflowKeepStart (condenseAllToolResultsForOverflow messages) (max keepMessages 1)
          anchor ≤ anchor := by
        refine overflowKeepStart_le (by rw [length_condenseAll]; exact hdes.lt) ?_
        rw [length_condenseAll]
        exact fun htarget => (hsafe hlong (by omega) htarget).condense
      rw [overflow_of_lt hlong hdes.lt hcut]
      exact Or.inl (hdes.condense.drop hcut)
  · exact AnchorHolds.shorter hgone (length_overflow_le messages keepMessages anchor)

/-- **An overflow without preservation** keeps the index.  Where it cuts, the user's message is to be the
last one: an index behind the end stands for that. -/
theorem AnchorHolds.overflow_unpreserved (h : AnchorHolds bound user newer anchor messages)
    (hsafe : max keepMessages 1 < messages.length → newer < messages.length → newer = 0 ∧
      RequestBetween messages (messages.length - max keepMessages 1) anchor) :
    AnchorHolds bound user newer (min anchor ((compactForContextOverflowPreserving messages keepMessages
        messages.length).1.length - 1))
      (compactForContextOverflowPreserving messages keepMessages messages.length).1 := by
  rcases h with hdes | hgone
  · have hposition := hdes.position
    rw [compactForContextOverflowPreserving_fst]
    split
    · exact AnchorHolds.clamp (Or.inl hdes.condense)
    rename_i hlong
    obtain ⟨hlast, hrequest⟩ := hsafe (Nat.lt_of_not_le hlong) (by omega)
    have hanchor : min messages.length (messages.length - 1) = anchor := by omega
    rw [hanchor]
    have hcut : overflowKeepStart (condenseAllToolResultsForOverflow messages) (max keepMessages 1)
        anchor ≤ anchor := by
      refine overflowKeepStart_le (by rw [length_condenseAll]; exact hdes.lt) fun _ => ?_
      rw [length_condenseAll]
      exact hrequest.condense
    have hkept := hdes.condense.drop hcut
    generalize overflowKeepStart (condenseAllToolResultsForOverflow messages) (max keepMessages 1)
      anchor = cut at hcut hkept ⊢
    have hindex : min anchor (((condenseAllToolResultsForOverflow messages).drop cut).length - 1) =
        anchor - cut := by
      have := hkept.position
      omega
    rw [hindex]
    exact Or.inl hkept
  · exact AnchorHolds.shorter hgone (length_overflow_le messages keepMessages messages.length)

/-! ### In front of the loop -/

/-- The last message is not among the old ones, whose results are condensed. -/
theorem Designates.condenseOld (h : Designates user 0 anchor messages) (keepTurns : ℕ) :
    Designates user 0 anchor (condenseOldToolResults messages keepTurns) := by
  unfold condenseOldToolResults
  dsimp only
  split
  · exact h
  obtain ⟨original, text, horiginal, hrewritten, htext⟩ := h.message
  have hposition := h.position
  have hlen : ((messages.take (condenseOldBoundary messages keepTurns)).map
      (ApiMessage.condense mentionsToolResult)).length = condenseOldBoundary messages keepTurns := by
    rw [List.length_map, List.length_take]
    omega
  refine ⟨?_, original, text, horiginal, hrewritten, ?_⟩
  · rw [List.length_append, List.length_drop]
    omega
  · rw [List.getElem?_append_right (by omega), hlen, List.getElem?_drop, Nat.add_sub_cancel' (by omega)]
    exact htext

/-- The summary is put into the first message, which may be the user's. -/
theorem Designates.summarize (h : Designates user newer anchor messages) (summaryText : String) :
    Designates user newer anchor (prependSummary summaryText messages) := by
  obtain ⟨original, text, horiginal, hrewritten, htext⟩ := h.message
  cases messages with
  | nil => cases htext
  | cons first rest =>
    unfold prependSummary
    dsimp only
    split
    · cases hcontent : first.content with
      | blocks blocks => exact h
      | text firstText =>
        refine ⟨h.position, original, ?_⟩
        cases anchor with
        | zero =>
          obtain rfl := Option.some.inj htext
          obtain rfl := Content.text.inj hcontent
          exact ⟨_, horiginal, hrewritten.summarized summaryText, rfl⟩
        | succ anchor => exact ⟨text, horiginal, hrewritten, htext⟩
    · exact h

/-- Proactive compaction keeps the last message, and the number of the others may shrink. -/
theorem Designates.compact (h : Designates user 0 anchor messages)
    {toJson : Value → List Char} {config : CompactionConfig} {isLocalEndpoint requiresToolEvidence : Bool}
    {contextWindowTokens : ℕ} {kept : List ApiMessage}
    (hkept : (runProactiveCompaction toJson config isLocalEndpoint messages contextWindowTokens
      requiresToolEvidence).1 = kept) : Designates user 0 (min anchor (kept.length - 1)) kept := by
  have hsame : Designates user 0 (min anchor (messages.length - 1)) messages := by
    have hlt := h.lt
    rw [Nat.min_eq_left (by omega)]
    exact h
  subst hkept
  rcases runProactiveCompaction_fst toJson config isLocalEndpoint messages contextWindowTokens
    requiresToolEvidence with hunchanged | ⟨keepRecentTurns, summaryText, hcompacted⟩
  · rw [hunchanged]
    exact hsame
  · rw [hcompacted]
    rcases compactWithSummary_cases messages keepRecentTurns summaryText with
      hunchanged | ⟨boundary, message, hmessage, -, hdropped⟩
    · rw [hunchanged]
      exact hsame
    · rw [hdropped]
      have hlt : boundary < messages.length := (List.getElem?_eq_some_iff.mp hmessage).1
      have hposition := h.position
      have hcut : boundary ≤ anchor := by omega
      have hlast := (h.drop hcut).summarize summaryText
      have hindex : min anchor ((prependSummary summaryText (messages.drop boundary)).length - 1) =
          anchor - boundary := by
        have := hlast.position
        omega
      rw [hindex]
      exact hlast

end Anchor

end Vexcoder.Conversation

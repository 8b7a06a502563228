import Vexcoder.Conversation.History

/-!
# Where the history is cut

What the loops that look for the first message to keep return, and with it the form of the history
behind pruning, overflow compaction and compaction with a summary: in each case it is the old history
from some message on, up to what condensing and the summary change in single messages.
-/

namespace Vexcoder.Conversation

open Base

/-! ### The loops -/

theorem lastTurnsStart_some {counts : ApiMessage → Bool} {keepTurns userCount i : ℕ}
    {messages : List ApiMessage} (h : lastTurnsStart counts keepTurns userCount messages.reverse = some i) :
    ∃ message, messages[i]? = some message ∧ counts message = true := by
  generalize hrev : messages.reverse = reversed at h
  obtain rfl : messages = reversed.reverse := by rw [← hrev, List.reverse_reverse]
  clear hrev
  induction reversed generalizing userCount with
  | nil => cases h
  | cons message earlier ih =>
    have hlift : ∀ m, earlier.reverse[i]? = some m → (message :: earlier).reverse[i]? = some m := by
      intro m hm
      rw [List.reverse_cons, List.getElem?_append_left]
      · exact hm
      · exact (List.getElem?_eq_some_iff.mp hm).1
    rw [lastTurnsStart] at h
    split at h
    · rename_i hcounts
      split at h
      · obtain rfl := Option.some.inj h
        refine ⟨message, ?_, hcounts⟩
        rw [List.reverse_cons, List.getElem?_append_right (Nat.le_of_eq List.length_reverse),
          List.length_reverse, Nat.sub_self]
        rfl
      · obtain ⟨m, hm, hc⟩ := ih h
        exact ⟨m, hlift m hm, hc⟩
    · obtain ⟨m, hm, hc⟩ := ih h
      exact ⟨m, hlift m hm, hc⟩

/-- The loop ends at the anchor, at a user request, or behind the last message. -/
theorem scanKeepStart_spec (anchor : Option ℕ) (start : ℕ) (messages : List ApiMessage) :
    start ≤ scanKeepStart anchor start messages ∧
      (anchor = some (scanKeepStart anchor start messages) ∨
        (∃ message, messages[scanKeepStart anchor start messages - start]? = some message ∧
          isUserRequest message = true) ∨
        (scanKeepStart anchor start messages = start + messages.length ∧
          ∀ message ∈ messages, isUserRequest message = false)) := by
  induction messages generalizing start with
  | nil => exact ⟨Nat.le_refl _, Or.inr (Or.inr ⟨rfl, nofun⟩)⟩
  | cons message messages ih =>
    rw [scanKeepStart]
    split
    · rename_i hanchor
      exact ⟨Nat.le_refl _, Or.inl hanchor⟩
    split
    · rename_i huser
      refine ⟨Nat.le_refl _, Or.inr (Or.inl ⟨message, ?_, huser⟩)⟩
      rw [Nat.sub_self]
      rfl
    · rename_i huser
      obtain ⟨hle, hcases⟩ := ih (start + 1)
      refine ⟨by omega, ?_⟩
      rcases hcases with hanchor | ⟨m, hm, hreq⟩ | ⟨hend, hnone⟩
      · exact Or.inl hanchor
      · refine Or.inr (Or.inl ⟨m, ?_, hreq⟩)
        generalize scanKeepStart anchor (start + 1) messages = k at hm hle ⊢
        obtain ⟨d, rfl⟩ := Nat.exists_eq_add_of_le hle
        rw [show start + 1 + d - start = d + 1 by omega]
        rwa [show start + 1 + d - (start + 1) = d by omega] at hm
      · refine Or.inr (Or.inr ⟨by rw [List.length_cons]; omega, fun m hm => ?_⟩)
        rcases List.mem_cons.mp hm with rfl | hm
        · exact Bool.not_eq_true _ ▸ huser
        · exact hnone m hm

/-- Without an anchor: the cut is at the first user request at or behind the target, if there is one to
find, and at the target otherwise. -/
theorem scanKeepStart_none {target : ℕ} {messages : List ApiMessage} (htarget : target < messages.length) :
    target ≤ scanKeepStart none target (messages.drop target) ∧
      ∃ cut, (if messages.length ≤ scanKeepStart none target (messages.drop target) then
          min target (messages.length - 1)
        else scanKeepStart none target (messages.drop target)) = cut ∧ target ≤ cut ∧
      cut < messages.length ∧
        ((cut = target ∧ ∀ message ∈ messages.drop target, isUserRequest message = false) ∨
          ∃ message, messages[cut]? = some message ∧ isUserRequest message = true) := by
  obtain ⟨hle, hcases⟩ := scanKeepStart_spec none target (messages.drop target)
  refine ⟨hle, _, rfl, ?_⟩
  rcases hcases with hanchor | ⟨m, hm, hreq⟩ | ⟨hend, hnone⟩
  · cases hanchor
  · rw [List.getElem?_drop, Nat.add_sub_cancel' hle] at hm
    have hlt := (List.getElem?_eq_some_iff.mp hm).1
    rw [if_neg (by omega)]
    exact ⟨hle, hlt, Or.inr ⟨m, hm, hreq⟩⟩
  · rw [List.length_drop] at hend
    rw [if_pos (by omega), Nat.min_eq_left (by omega)]
    exact ⟨Nat.le_refl _, htarget, Or.inl ⟨rfl, hnone⟩⟩

theorem scanKeepStart_anchor (start : ℕ) (messages : List ApiMessage) :
    scanKeepStart (some start) start messages = start := by
  cases messages with
  | nil => rfl
  | cons message messages => rw [scanKeepStart, if_pos rfl]

/-! ### The cuts -/

/-- The anchor lies below the messages that are to be kept, by at most two. -/
def PruneAnchored (messages : List ApiMessage) (maxApiMessages preserveIndex : ℕ) : Prop :=
  preserveIndex < messages.length - maxApiMessages ∧ messages.length - maxApiMessages - preserveIndex ≤ 2
  deriving Decidable

variable (messages : List ApiMessage) (maxApiMessages preserveIndex : ℕ)

/-- Pruning cuts at the target when the anchor is near below it or no user request is left at or
behind it, and at the first such request otherwise. -/
theorem pruneKeepStart_cases (hmax : 0 < maxApiMessages) (hlen : maxApiMessages < messages.length) :
    messages.length - maxApiMessages ≤ pruneKeepStart messages maxApiMessages preserveIndex ∧
    pruneKeepStart messages maxApiMessages preserveIndex < messages.length ∧
      ((pruneKeepStart messages maxApiMessages preserveIndex = messages.length - maxApiMessages ∧
          (PruneAnchored messages maxApiMessages preserveIndex ∨
            ∀ message ∈ messages.drop (messages.length - maxApiMessages), isUserRequest message = false)) ∨
        ∃ message, messages[pruneKeepStart messages maxApiMessages preserveIndex]? = some message ∧
          isUserRequest message = true) := by
  unfold pruneKeepStart
  by_cases hanchored : preserveIndex < messages.length - maxApiMessages ∧
      messages.length - maxApiMessages - preserveIndex ≤ 2
  · simp only [if_pos hanchored, scanKeepStart_anchor]
    rw [Nat.max_eq_right (Nat.le_of_lt hanchored.1), if_neg (by omega)]
    exact ⟨Nat.le_refl _, by omega, Or.inl ⟨rfl, Or.inl hanchored⟩⟩
  · simp only [if_neg hanchored]
    obtain ⟨hle, cut, hcut, htarget, hlt, hcases⟩ := scanKeepStart_none
      (show messages.length - maxApiMessages < messages.length by omega)
    rw [Nat.max_eq_left hle, hcut]
    exact ⟨htarget, hlt, hcases.imp_left fun h => ⟨h.1, Or.inr h.2⟩⟩

theorem pruneMessageHistoryPreserving_fst :
    (pruneMessageHistoryPreserving messages maxApiMessages preserveIndex).1 =
      if messages.length ≤ maxApiMessages then messages
      else messages.drop (pruneKeepStart messages maxApiMessages preserveIndex) := by
  unfold pruneMessageHistoryPreserving
  split
  · rename_i hnil
    rw [hnil, if_pos (by simp)]
  split
  · rfl
  dsimp only
  split
  · rfl
  · rename_i hzero
    rw [Nat.eq_zero_of_not_pos hzero, List.drop_zero]

/-- An overflow cuts at the preserved message when it lies below the target; else as pruning does. -/
theorem overflowKeepStart_cases (keepMessages preserveIndex : ℕ) (hkeep : 0 < keepMessages)
    (hlen : keepMessages < messages.length) :
    overflowKeepStart messages keepMessages preserveIndex < messages.length ∧
      ((preserveIndex < messages.length - keepMessages ∧
          overflowKeepStart messages keepMessages preserveIndex = preserveIndex) ∨
        (messages.length - keepMessages ≤ preserveIndex ∧
          ((overflowKeepStart messages keepMessages preserveIndex = messages.length - keepMessages ∧
              ∀ message ∈ messages.drop (messages.length - keepMessages), isUserRequest message = false) ∨
            ∃ message, messages[overflowKeepStart messages keepMessages preserveIndex]? =
              some message ∧ isUserRequest message = true))) := by
  unfold overflowKeepStart
  by_cases hanchored : preserveIndex < messages.length - keepMessages
  · simp only [if_pos hanchored, scanKeepStart_anchor]
    rw [if_neg (by omega)]
    exact ⟨by omega, Or.inl ⟨hanchored, rfl⟩⟩
  · simp only [if_neg hanchored]
    obtain ⟨-, cut, hcut, -, hlt, hcases⟩ := scanKeepStart_none
      (show messages.length - keepMessages < messages.length by omega)
    rw [hcut]
    exact ⟨hlt, Or.inr ⟨by omega, hcases⟩⟩

theorem length_condenseAll :
    (condenseAllToolResultsForOverflow messages).length = messages.length := List.length_map _

theorem compactForContextOverflowPreserving_fst (keepMessages preserveIndex : ℕ) :
    (compactForContextOverflowPreserving messages keepMessages preserveIndex).1 =
      if messages.length ≤ max keepMessages 1 then condenseAllToolResultsForOverflow messages
      else (condenseAllToolResultsForOverflow messages).drop
        (overflowKeepStart (condenseAllToolResultsForOverflow messages) (max keepMessages 1)
          (min preserveIndex (messages.length - 1))) := by
  unfold compactForContextOverflowPreserving
  dsimp only
  split
  · rename_i hnil
    rw [hnil]
    rfl
  · rw [length_condenseAll]
    split
    · rfl
    have hcut := (overflowKeepStart_cases (condenseAllToolResultsForOverflow messages)
      (max keepMessages 1) (min preserveIndex (messages.length - 1))
      (Nat.lt_of_lt_of_le Nat.zero_lt_one (Nat.le_max_right _ _))
      (by rw [length_condenseAll]; omega)).1
    rw [length_condenseAll] at hcut
    split
    · rfl
    · have : overflowKeepStart (condenseAllToolResultsForOverflow messages) (max keepMessages 1)
          (min preserveIndex (messages.length - 1)) = 0 := by omega
      rw [this, List.drop_zero]

/-- Proactive compaction keeps the history, or cuts it in front of a user request and puts the
summary into that. -/
theorem compactWithSummary_cases (keepRecentTurns : ℕ) (summaryText : String) :
    (compactWithSummary messages keepRecentTurns summaryText).1 = messages ∨
      ∃ boundary message, messages[boundary]? = some message ∧ isUserRequest message = true ∧
        (compactWithSummary messages keepRecentTurns summaryText).1 =
          prependSummary summaryText (messages.drop boundary) := by
  unfold compactWithSummary
  dsimp only
  split
  · exact Or.inl rfl
  rename_i hzero
  right
  cases hstart : lastTurnsStart isUserRequest keepRecentTurns 0 messages.reverse with
  | none => rw [hstart] at hzero; exact absurd rfl hzero
  | some boundary =>
    obtain ⟨message, hmessage, hrequest⟩ := lastTurnsStart_some hstart
    exact ⟨boundary, message, hmessage, hrequest, rfl⟩

theorem runProactiveCompaction_fst (toJson : Value → List Char) (config : CompactionConfig)
    (isLocalEndpoint : Bool) (messages : List ApiMessage) (contextWindowTokens : ℕ)
    (requiresToolEvidence : Bool) :
    (runProactiveCompaction toJson config isLocalEndpoint messages contextWindowTokens
        requiresToolEvidence).1 = messages ∨
      ∃ keepRecentTurns summaryText,
        (runProactiveCompaction toJson config isLocalEndpoint messages contextWindowTokens
          requiresToolEvidence).1 = (compactWithSummary messages keepRecentTurns summaryText).1 := by
  unfold runProactiveCompaction
  dsimp only
  split
  · exact Or.inl rfl
  · split <;> exact Or.inr ⟨_, _, rfl⟩

end Vexcoder.Conversation

import Vexcoder.Conversation.HistoryCuts

/-!
# The suffix of the history that is kept

Pruning and compaction with a summary both keep a suffix of the history.  For pruning: how long the
suffix is, what it begins with, and where the preserved message stands in it.  For compaction: the
suffix begins with a user request and holds as many of them as were asked for, the summary speaks
about the messages in front of it, and its size is bounded up to the line breaks between its entries.
-/

namespace Vexcoder.Conversation

open Base

/-! ### Pruning -/

variable (messages : List ApiMessage) (maxApiMessages preserveIndex : ℕ)

/-- The pruned history and the index, for a history that is too long. -/
theorem pruneMessageHistoryPreserving_of_lt (hlen : maxApiMessages < messages.length) :
    pruneMessageHistoryPreserving messages maxApiMessages preserveIndex =
      (messages.drop (pruneKeepStart messages maxApiMessages preserveIndex),
        preserveIndex - pruneKeepStart messages maxApiMessages preserveIndex) := by
  have hne : messages ≠ [] := by
    intro hnil
    rw [hnil] at hlen
    exact Nat.not_lt_zero _ hlen
  unfold pruneMessageHistoryPreserving
  rw [if_neg hne, if_neg (by omega)]
  by_cases hpos : 0 < pruneKeepStart messages maxApiMessages preserveIndex
  · rw [if_pos hpos]
  · rw [if_neg hpos, show pruneKeepStart messages maxApiMessages preserveIndex = 0 from by omega,
      List.drop_zero, Nat.sub_zero]

theorem pruneMessageHistoryPreserving_of_le (hlen : messages.length ≤ maxApiMessages)
    (hpreserve : preserveIndex < messages.length) :
    pruneMessageHistoryPreserving messages maxApiMessages preserveIndex = (messages, preserveIndex) := by
  have hne : messages ≠ [] := by
    intro hnil
    rw [hnil] at hpreserve
    exact Nat.not_lt_zero _ hpreserve
  unfold pruneMessageHistoryPreserving
  rw [if_neg hne, if_pos hlen, Nat.min_eq_left (by omega)]

/-- What pruning keeps, and where the preserved message stands in it. -/
structure PrunedSuffix (messages : List ApiMessage) (maxApiMessages preserveIndex : ℕ)
    (kept : List ApiMessage) (index : ℕ) : Prop where
  nonempty : kept ≠ []
  suffix : kept <:+ messages
  bounded : kept.length ≤ maxApiMessages
  /-- The preserved message was kept when the part that was cut off ends at or in front of it. -/
  preserved : messages.length - kept.length ≤ preserveIndex →
    kept[index]? = messages[preserveIndex]? ∧ index + (messages.length - kept.length) = preserveIndex

theorem prunedSuffix (hmax : 1 ≤ maxApiMessages) (hpreserve : preserveIndex < messages.length) :
    PrunedSuffix messages maxApiMessages preserveIndex
      (pruneMessageHistoryPreserving messages maxApiMessages preserveIndex).1
      (pruneMessageHistoryPreserving messages maxApiMessages preserveIndex).2 := by
  by_cases hlen : messages.length ≤ maxApiMessages
  · rw [pruneMessageHistoryPreserving_of_le messages maxApiMessages preserveIndex hlen hpreserve]
    refine ⟨?_, List.suffix_refl messages, hlen, fun _ => ⟨rfl, ?_⟩⟩
    · intro hnil
      have hnil' : messages = [] := hnil
      rw [hnil'] at hpreserve
      exact Nat.not_lt_zero _ hpreserve
    · show preserveIndex + (messages.length - messages.length) = preserveIndex
      omega
  · have hlong : maxApiMessages < messages.length := by omega
    obtain ⟨htarget, hlt, -⟩ := pruneKeepStart_cases messages maxApiMessages preserveIndex hmax hlong
    rw [pruneMessageHistoryPreserving_of_lt messages maxApiMessages preserveIndex hlong]
    generalize pruneKeepStart messages maxApiMessages preserveIndex = keepStart at hlt htarget
    refine ⟨?_, List.drop_suffix keepStart messages, ?_, ?_⟩
    · intro hnil
      have hzero := congrArg List.length hnil
      rw [List.length_drop, List.length_nil] at hzero
      omega
    · rw [List.length_drop]
      omega
    · intro hkept
      rw [List.length_drop] at hkept ⊢
      have hle : keepStart ≤ preserveIndex := by omega
      rw [List.getElem?_drop, Nat.add_sub_cancel' hle]
      exact ⟨rfl, by omega⟩

/-- Pruning keeps a suffix that is not empty and not too long, with the preserved message at the
returned index when it is in it.  A history that is too long is cut in front of a user request, if the
last `maxApiMessages` messages hold one and the preserved message does not lie one or two places below
them; a history that is not too long is kept as it is. -/
theorem prune_keeps_anchored_suffix (messages : List ApiMessage) (maxApiMessages preserveIndex : ℕ)
    (hmax : 1 ≤ maxApiMessages) (hpreserve : preserveIndex < messages.length) :
    PrunedSuffix messages maxApiMessages preserveIndex
      (pruneMessageHistoryPreserving messages maxApiMessages preserveIndex).1
      (pruneMessageHistoryPreserving messages maxApiMessages preserveIndex).2 ∧
    (messages.length ≤ maxApiMessages →
      (pruneMessageHistoryPreserving messages maxApiMessages preserveIndex).1 = messages) ∧
    (maxApiMessages < messages.length → ¬ PruneAnchored messages maxApiMessages preserveIndex →
      (∃ message ∈ messages.drop (messages.length - maxApiMessages),
        isUserRequest message = true) →
      ∃ first, (pruneMessageHistoryPreserving messages maxApiMessages preserveIndex).1.head? =
        some first ∧ isUserRequest first = true) := by
  refine ⟨prunedSuffix messages maxApiMessages preserveIndex hmax hpreserve, ?_, ?_⟩
  · intro hlen
    rw [pruneMessageHistoryPreserving_of_le messages maxApiMessages preserveIndex hlen hpreserve]
  · intro hlong hfree hwindow
    obtain ⟨request, hrequest, hrequests⟩ := hwindow
    obtain ⟨-, -, hcases⟩ := pruneKeepStart_cases messages maxApiMessages preserveIndex hmax hlong
    rw [pruneMessageHistoryPreserving_of_lt messages maxApiMessages preserveIndex hlong,
      List.head?_drop]
    rcases hcases with ⟨-, hanchored | hnone⟩ | hfound
    · exact absurd hanchored hfree
    · rw [hnone request hrequest] at hrequests
      cases hrequests
    · exact hfound

def prunedSample : List ApiMessage :=
  ["user", "assistant", "user", "assistant", "assistant", "user", "assistant"].map fun role =>
    { role := role, content := .text "text", cacheHint := none }

theorem prune_keeps_sample :
    (pruneMessageHistoryPreserving prunedSample 3 0).1.length ≤ 3 ∧
      ∃ first, (pruneMessageHistoryPreserving prunedSample 3 0).1.head? = some first ∧
        isUserRequest first = true := by
  obtain ⟨hsuffix, -, hfirst⟩ := prune_keeps_anchored_suffix prunedSample 3 0 (by decide) (by decide)
  refine ⟨hsuffix.bounded, hfirst (by decide) (by decide) ?_⟩
  exact ⟨{ role := "user", content := .text "text", cacheHint := none }, by decide, by decide⟩

/-- A history that is not too long keeps its front, whatever that is. -/
theorem short_history_keeps_front :
    (∃ message ∈ [assistantText "a", userText "u"].drop (2 - 2), isUserRequest message = true) ∧
    ∃ first, (pruneMessageHistoryPreserving [assistantText "a", userText "u"] 2 1).1.head? =
      some first ∧ isUserRequest first = false :=
  ⟨⟨userText "u", by decide, by decide⟩, assistantText "a", by decide, by decide⟩

/-! ### Compaction with a summary -/

/-- The loop from the last message back stops at a message that counts, with as many of them from
there on as were asked for, or there are fewer. -/
theorem lastTurnsStart_spec {counts : ApiMessage → Bool} {keepTurns userCount : ℕ}
    (h : userCount < keepTurns) (reversed : List ApiMessage) :
    (∀ i, lastTurnsStart counts keepTurns userCount reversed = some i →
      ∃ first rest, reversed.reverse.drop i = first :: rest ∧ counts first = true ∧
        userCount + (first :: rest).countP counts = keepTurns) ∧
    (lastTurnsStart counts keepTurns userCount reversed = none →
      userCount + reversed.countP counts < keepTurns) := by
  induction reversed generalizing userCount with
  | nil => exact ⟨fun _ hi => (by cases hi), fun _ => h⟩
  | cons message earlier ih =>
    rw [lastTurnsStart, List.reverse_cons]
    -- what the loop finds in front of the message, the message is behind
    have hbehind : ∀ i first rest, earlier.reverse.drop i = first :: rest →
        (earlier.reverse ++ [message]).drop i = first :: (rest ++ [message]) := by
      intro i first rest hdrop
      have hle : i ≤ earlier.reverse.length := by
        by_contra hgt
        rw [List.drop_of_length_le (by omega)] at hdrop
        cases hdrop
      rw [List.drop_append_of_le_length hle, hdrop, List.cons_append]
    by_cases hcounts : counts message = true
    · rw [if_pos hcounts]
      by_cases hlast : keepTurns ≤ userCount + 1
      · rw [if_pos hlast]
        refine ⟨fun i hi => ?_, fun hnone => by cases hnone⟩
        obtain rfl := Option.some.inj hi
        refine ⟨message, [], ?_, hcounts, ?_⟩
        · rw [List.drop_append_of_le_length (by rw [List.length_reverse]), List.drop_of_length_le
            (by rw [List.length_reverse])]
          rfl
        · rw [List.countP_cons_of_pos hcounts, List.countP_nil]
          omega
      · rw [if_neg hlast]
        have hmore : userCount + 1 < keepTurns := by omega
        obtain ⟨hsome, hnone⟩ := ih hmore
        constructor
        · intro i hi
          obtain ⟨first, rest, hdrop, hfirst, hcount⟩ := hsome i hi
          refine ⟨first, rest ++ [message], hbehind i first rest hdrop, hfirst, ?_⟩
          rw [← List.cons_append, List.countP_append, List.countP_cons_of_pos hcounts, List.countP_nil]
          omega
        · intro hi
          have hcount := hnone hi
          rw [List.countP_cons_of_pos hcounts]
          omega
    · rw [if_neg hcounts]
      obtain ⟨hsome, hnone⟩ := ih h
      constructor
      · intro i hi
        obtain ⟨first, rest, hdrop, hfirst, hcount⟩ := hsome i hi
        refine ⟨first, rest ++ [message], hbehind i first rest hdrop, hfirst, ?_⟩
        rw [← List.cons_append, List.countP_append, List.countP_cons_of_neg hcounts, List.countP_nil]
        omega
      · intro hi
        have hcount := hnone hi
        rw [List.countP_cons_of_neg hcounts]
        omega

/-- The first message with a summary in front of its text; a message of blocks stays as it is. -/
inductive WithSummary (summaryText : String) (first : ApiMessage) : ApiMessage → Prop where
  | same : (summaryText = "" ∨ ∃ blocks, first.content = .blocks blocks) →
      WithSummary summaryText first first
  | text {text : String} : first.content = .text text → summaryText ≠ "" →
      WithSummary summaryText first
        { first with content := .text (summarizedRequest summaryText text) }

theorem prependSummary_cons (summaryText : String) {first : ApiMessage} (rest : List ApiMessage)
    (h : isUserRequest first = true) :
    ∃ first', prependSummary summaryText (first :: rest) = first' :: rest ∧
      WithSummary summaryText first first' := by
  have hempty : Text.isEmpty summaryText = true ↔ summaryText = "" := by
    rw [Text.isEmpty, List.isEmpty_iff]
    exact String.toList_eq_nil_iff
  rw [prependSummary, h]
  by_cases hnone : Text.isEmpty summaryText = true
  · rw [hnone]
    exact ⟨first, rfl, .same (.inl (hempty.mp hnone))⟩
  have hsome : Text.isEmpty summaryText = false := by simpa using hnone
  rw [hsome]
  cases hcontent : first.content with
  | text text => exact ⟨_, rfl, .text hcontent fun hs => hnone (hempty.mpr hs)⟩
  | blocks blocks => exact ⟨first, rfl, .same (.inr ⟨blocks, hcontent⟩)⟩

/-- The history falls into older messages and the recent turns, which a user request begins. -/
structure RecentTurns (keepRecentTurns : ℕ) (messages older recent : List ApiMessage) : Prop where
  split : messages = older ++ recent
  begins : ∃ first rest, recent = first :: rest ∧ isUserRequest first = true
  turns : recent.countP isUserRequest = keepRecentTurns

/-- There is at most one such place, and the loop finds it. -/
theorem lastTurnsStart_of_recentTurns {keepRecentTurns : ℕ} (hkeep : 1 ≤ keepRecentTurns)
    {messages older recent : List ApiMessage} (h : RecentTurns keepRecentTurns messages older recent) :
    lastTurnsStart isUserRequest keepRecentTurns 0 messages.reverse = some older.length := by
  obtain ⟨hsome, hnone⟩ := @lastTurnsStart_spec isUserRequest _ _ hkeep messages.reverse
  rw [List.reverse_reverse] at hsome
  rw [List.countP_reverse] at hnone
  obtain ⟨first, rest, hrecent, hfirst⟩ := h.begins
  have hturns := h.turns
  cases hstart : lastTurnsStart isUserRequest keepRecentTurns 0 messages.reverse with
  | none =>
    have hfew := hnone hstart
    rw [h.split, List.countP_append] at hfew
    omega
  | some i =>
    obtain ⟨found, behind, hdrop, hfound, hcount⟩ := hsome i hstart
    rw [← hdrop] at hcount
    congr 1
    -- a cut further in front has one request more, and one further behind one less
    rcases Nat.lt_trichotomy i older.length with hlt | heq | hgt
    · rw [h.split, List.drop_append_of_le_length (Nat.le_of_lt hlt)] at hdrop hcount
      rw [List.countP_append] at hcount
      cases hpart : older.drop i with
      | nil =>
        have hzero := congrArg List.length hpart
        rw [List.length_drop, List.length_nil] at hzero
        omega
      | cons head part =>
        rw [hpart] at hdrop
        rw [hpart, (List.cons.inj hdrop).1, List.countP_cons_of_pos hfound] at hcount
        omega
    · exact heq
    · rw [h.split, hrecent, List.drop_append, List.drop_of_length_le (Nat.le_of_lt hgt),
        List.nil_append] at hcount
      obtain ⟨d, hd⟩ := Nat.exists_eq_add_of_lt hgt
      rw [hd, show older.length + d + 1 - older.length = d + 1 from by omega, List.drop_succ_cons] at hcount
      rw [hrecent, List.countP_cons_of_pos hfirst] at hturns
      have hle := (List.drop_sublist d rest).countP_le (p := isUserRequest)
      omega

theorem recentTurns_of_lastTurnsStart {keepRecentTurns : ℕ} (hkeep : 1 ≤ keepRecentTurns)
    {messages : List ApiMessage} {i : ℕ}
    (h : lastTurnsStart isUserRequest keepRecentTurns 0 messages.reverse = some i) :
    RecentTurns keepRecentTurns messages (messages.take i) (messages.drop i) := by
  obtain ⟨hsome, -⟩ := @lastTurnsStart_spec isUserRequest _ _ hkeep messages.reverse
  rw [List.reverse_reverse] at hsome
  obtain ⟨first, rest, hdrop, hfirst, hcount⟩ := hsome i h
  refine ⟨(List.take_append_drop i messages).symm, ⟨first, rest, hdrop, hfirst⟩, ?_⟩
  rw [hdrop]
  omega

/-! ### The size of a summary -/

/-- The bytes of some texts, without what is put between them. -/
def totalBytes (parts : List String) : ℕ := (parts.map String.utf8ByteSize).sum

theorem totalBytes_cons (part : String) (parts : List String) :
    totalBytes (part :: parts) = part.utf8ByteSize + totalBytes parts := List.sum_cons

theorem totalBytes_take_mono (parts : List String) {k n : ℕ} (h : k ≤ n) :
    totalBytes (parts.take k) ≤ totalBytes (parts.take n) := by
  induction parts generalizing k n with
  | nil => rw [List.take_nil, List.take_nil]
  | cons part parts ih =>
    cases k with
    | zero => exact Nat.zero_le _
    | succ k =>
      obtain ⟨m, rfl⟩ : ∃ m, n = m + 1 := ⟨n - 1, by omega⟩
      have hrest := ih (Nat.le_of_succ_le_succ h)
      rw [List.take_succ_cons, List.take_succ_cons, totalBytes_cons, totalBytes_cons]
      omega

theorem utf8ByteSize_join (parts : List String) :
    (Text.join "\n" parts).utf8ByteSize = totalBytes parts + (parts.length - 1) := by
  induction parts with
  | nil => rfl
  | cons part rest ih =>
    cases rest with
    | nil =>
      show part.utf8ByteSize = totalBytes [part] + 0
      rfl
    | cons next rest =>
      show (part ++ "\n" ++ Text.join "\n" (next :: rest)).utf8ByteSize = _
      rw [String.utf8ByteSize_append, String.utf8ByteSize_append, ih, totalBytes_cons part,
        show ("\n" : String).utf8ByteSize = 1 from rfl]
      simp only [List.length_cons]
      omega

/-- The entries taken are the longest part whose bytes fit. -/
theorem takeEntries_spec (maxBytes spent : ℕ) (entries : List String) :
    ∃ n ≤ entries.length, takeEntries maxBytes spent entries = entries.take n ∧
      (n ≠ 0 → spent + totalBytes (entries.take n) ≤ maxBytes) ∧
      ∀ k ≤ entries.length, n < k → maxBytes < spent + totalBytes (entries.take k) := by
  induction entries generalizing spent with
  | nil => exact ⟨0, Nat.le_refl 0, rfl, fun h => absurd rfl h, fun k hk hlt => by
      rw [List.length_nil] at hk
      omega⟩
  | cons entry entries ih =>
    rw [takeEntries]
    by_cases hover : maxBytes < spent + entry.utf8ByteSize
    · rw [if_pos hover]
      refine ⟨0, Nat.zero_le _, rfl, fun h => absurd rfl h, fun k _ hlt => ?_⟩
      obtain ⟨m, rfl⟩ : ∃ m, k = m + 1 := ⟨k - 1, by omega⟩
      rw [List.take_succ_cons, totalBytes_cons]
      omega
    · rw [if_neg hover]
      obtain ⟨n, hn, htake, hfits, hbeyond⟩ := ih (spent + entry.utf8ByteSize)
      refine ⟨n + 1, Nat.succ_le_succ hn, by rw [htake, List.take_succ_cons], fun _ => ?_,
        fun k hk hlt => ?_⟩
      · rw [List.take_succ_cons, totalBytes_cons, ← Nat.add_assoc]
        by_cases hzero : n = 0
        · subst hzero
          show spent + entry.utf8ByteSize + 0 ≤ maxBytes
          omega
        · exact hfits hzero
      · obtain ⟨m, rfl⟩ : ∃ m, k = m + 1 := ⟨k - 1, by omega⟩
        rw [List.take_succ_cons, totalBytes_cons, ← Nat.add_assoc]
        exact hbeyond m (Nat.le_of_succ_le_succ hk) (Nat.lt_of_succ_lt_succ hlt)

/-- The summary of the messages that are removed. -/
def summaryOf (removed : List ApiMessage) (maxTokens : ℕ) : String :=
  Text.join "\n" (takeEntries (maxTokens * 4) 0 (removed.filterMap summaryEntry))

/-- Wherever entries fit into the limit by themselves, they do so with a line break between each two. -/
def SeparatorsFit (maxBytes : ℕ) (entries : List String) : Prop :=
  ∀ n ≤ entries.length, totalBytes (entries.take n) ≤ maxBytes →
    totalBytes (entries.take n) + (n - 1) ≤ maxBytes

theorem summaryOf_bounded_iff (removed : List ApiMessage) (maxTokens : ℕ) :
    (summaryOf removed maxTokens).utf8ByteSize ≤ maxTokens * 4 ↔
      SeparatorsFit (maxTokens * 4) (removed.filterMap summaryEntry) := by
  generalize hentries : removed.filterMap summaryEntry = entries
  obtain ⟨n, hn, htake, hfits, hbeyond⟩ := takeEntries_spec (maxTokens * 4) 0 entries
  rw [summaryOf, hentries, htake, utf8ByteSize_join, List.length_take, Nat.min_eq_left hn]
  constructor
  · intro hbound k hk hbytes
    have hkn : k ≤ n := by
      by_contra hlt
      have hover := hbeyond k hk (by omega)
      omega
    have hmono := totalBytes_take_mono entries hkn
    omega
  · intro hseparators
    by_cases hzero : n = 0
    · subst hzero
      exact Nat.zero_le _
    · have hbytes := hfits hzero
      rw [Nat.zero_add] at hbytes
      exact hseparators n hn hbytes

/-! ### What compaction keeps -/

/-- What compaction with the heuristic summary does to a history. -/
structure RecentTurnsKept (messages : List ApiMessage) (keepRecentTurns maxTokens : ℕ)
    (summaryText : String) (kept : List ApiMessage) (removed : ℕ) : Prop where
  unchanged : removed = 0 → kept = messages
  turns : removed ≠ 0 → RecentTurns keepRecentTurns messages (messages.take removed) (messages.drop removed)
  /-- In the messages kept, only the text of the first one is new. -/
  first : removed ≠ 0 → ∃ first first' rest, messages.drop removed = first :: rest ∧
    kept = first' :: rest ∧ WithSummary summaryText first first'
  few : messages.countP isUserRequest < keepRecentTurns → removed = 0
  front : RecentTurns keepRecentTurns messages [] messages → removed = 0
  summarised : summaryText = summaryOf (messages.take removed) maxTokens
  bounded : summaryText.utf8ByteSize ≤ maxTokens * 4

/-- The summary is about the messages in front of the boundary. -/
theorem buildHeuristicSummary_eq (keepRecentTurns maxTokens : ℕ) :
    buildHeuristicSummary messages keepRecentTurns maxTokens =
      summaryOf (messages.take
        ((lastTurnsStart isUserRequest keepRecentTurns 0 messages.reverse).getD 0)) maxTokens := rfl

theorem compactWithSummary_snd (keepRecentTurns : ℕ) (summaryText : String) :
    (compactWithSummary messages keepRecentTurns summaryText).2 =
      (lastTurnsStart isUserRequest keepRecentTurns 0 messages.reverse).getD 0 := by
  unfold compactWithSummary
  dsimp only
  split
  · rename_i hzero
    exact hzero.symm
  · rfl

/-- Compaction keeps exactly the recent turns, summarises what is in front of them, and its summary is
within its limit exactly when the line breaks between the entries still fit into it. -/
theorem compaction_keeps_recent_turns (messages : List ApiMessage) (keepRecentTurns maxTokens : ℕ)
    (hkeep : 1 ≤ keepRecentTurns) :
    let summaryText := buildHeuristicSummary messages keepRecentTurns maxTokens
    RecentTurnsKept messages keepRecentTurns maxTokens summaryText
        (compactWithSummary messages keepRecentTurns summaryText).1
        (compactWithSummary messages keepRecentTurns summaryText).2 ↔
      ∀ older recent, RecentTurns keepRecentTurns messages older recent →
        SeparatorsFit (maxTokens * 4) (older.filterMap summaryEntry) := by
  intro summaryText
  have hsummary : summaryText = summaryOf (messages.take
      ((lastTurnsStart isUserRequest keepRecentTurns 0 messages.reverse).getD 0)) maxTokens :=
    buildHeuristicSummary_eq messages keepRecentTurns maxTokens
  rw [compactWithSummary_snd]
  constructor
  · intro h older recent hrecent
    have hbound := h.bounded
    rw [hsummary, lastTurnsStart_of_recentTurns hkeep hrecent, Option.getD_some, hrecent.split,
      List.take_left, summaryOf_bounded_iff] at hbound
    exact hbound
  · intro h
    have hunchanged : (lastTurnsStart isUserRequest keepRecentTurns 0 messages.reverse).getD 0 = 0 →
        (compactWithSummary messages keepRecentTurns summaryText).1 = messages := by
      intro hzero
      unfold compactWithSummary
      rw [if_pos hzero]
    have hfront : RecentTurns keepRecentTurns messages [] messages →
        (lastTurnsStart isUserRequest keepRecentTurns 0 messages.reverse).getD 0 = 0 := by
      intro hrecent
      rw [lastTurnsStart_of_recentTurns hkeep hrecent]
      rfl
    have hcompact : (lastTurnsStart isUserRequest keepRecentTurns 0 messages.reverse).getD 0 ≠ 0 →
        (compactWithSummary messages keepRecentTurns summaryText).1 = prependSummary summaryText
          (messages.drop
            ((lastTurnsStart isUserRequest keepRecentTurns 0 messages.reverse).getD 0)) := by
      intro hpos
      unfold compactWithSummary
      rw [if_neg hpos]
    cases hstart : lastTurnsStart isUserRequest keepRecentTurns 0 messages.reverse with
    | none =>
      rw [hstart] at hunchanged hfront hsummary
      refine ⟨hunchanged, fun hpos => absurd rfl hpos, fun hpos => absurd rfl hpos, fun _ => rfl,
        hfront, hsummary, ?_⟩
      rw [hsummary]
      exact Nat.zero_le _
    | some i =>
      have hrecent := recentTurns_of_lastTurnsStart hkeep hstart
      rw [hstart] at hunchanged hfront hsummary hcompact
      rw [Option.getD_some] at hunchanged hfront hsummary hcompact
      refine ⟨hunchanged, fun _ => hrecent, fun hpos => ?_, fun hfew => ?_, hfront, hsummary, ?_⟩
      · obtain ⟨first, rest, hdrop, hfirst⟩ := hrecent.begins
        obtain ⟨first', hprepend, hwith⟩ := prependSummary_cons summaryText rest hfirst
        exact ⟨first, first', rest, hdrop, by rw [hcompact hpos, hdrop, hprepend], hwith⟩
      · have hturns := hrecent.turns
        have hle := (List.drop_sublist i messages).countP_le (p := isUserRequest)
        omega
      · rw [hsummary, summaryOf_bounded_iff]
        exact h _ _ hrecent

def compactedSample : List ApiMessage :=
  [userText "ab", assistantText "x", userText "cd", assistantText "y", userText "ef"]

/-- A limit of 24 bytes has room for both entries and for the line break between them. -/
theorem compaction_keeps_sample_turns :
    let summaryText := buildHeuristicSummary compactedSample 1 6
    RecentTurnsKept compactedSample 1 6 summaryText (compactWithSummary compactedSample 1 summaryText).1
      (compactWithSummary compactedSample 1 summaryText).2 := by
  refine (compaction_keeps_recent_turns compactedSample 1 6 (by decide)).mpr
    fun older recent hrecent n hn _ => ?_
  have hstart : some older.length = some 4 :=
    (lastTurnsStart_of_recentTurns (by decide) hrecent).symm.trans (by decide)
  have holder : older = compactedSample.take 4 := by
    rw [hrecent.split, ← Option.some.inj hstart, List.take_left]
  have hentries : older.filterMap summaryEntry = ["- user: ab", "- user: cd"] := by
    rw [holder]
    decide
  rw [hentries] at hn ⊢
  have htotal := totalBytes_take_mono ["- user: ab", "- user: cd"] hn
  rw [List.take_length, show totalBytes ["- user: ab", "- user: cd"] = 20 from by decide] at htotal
  have hlen : n ≤ 2 := hn
  omega

/-- The two entries have 20 bytes, and with the line break between them the summary has 21. -/
theorem summary_exceeds_limit :
    (compactWithSummary compactedSample 1 (buildHeuristicSummary compactedSample 1 5)).2 = 4 ∧
      ¬ (buildHeuristicSummary compactedSample 1 5).utf8ByteSize ≤ 5 * 4 := by
  decide

end Vexcoder.Conversation

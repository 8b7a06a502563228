import Vexcoder.Runtime.AccumulatorRuns
import Vexcoder.Runtime.JsonPrefixes

/-!
# The stored arguments of a streaming tool call

The text stored for a tool call against the deltas accepted for it.  The limit of the store and the
flag hold in every run.  The store is a prefix of the deltas as long as no delta that arrives behind
the limit begins with a character for which there is still room, and a piece of a well-formed JSON text
is only refused behind the limit, where the check no longer sees the text that was left out.
-/

namespace Vexcoder.Runtime

open Base
open Lib DeltaAccumulator Capped

/-- What is stored of the accepted deltas is a prefix of them, within the limit, and the flag and the
one signal of a truncation say whether it is shorter. -/
structure FaithfullyStored (entry : ToolState) (account : Ledger) : Prop where
  prefixed : entry.partialArgs <+: account.accepted.flatten
  bounded : byteLen entry.partialArgs ≤ maxStoredPartialBytes
  shorter : byteLen entry.partialArgs < byteLen account.accepted.flatten ↔ entry.partialArgsTruncated = true
  signalled : account.truncations = if entry.partialArgsTruncated then 1 else 0

/-- The accepted deltas and the next one are consecutive pieces of one JSON text, from its start. -/
def PiecesOfJson (accepted : List (List Char)) (partialJson : List Char) : Prop :=
  ∃ text, JsonText.WellFormed text ∧ accepted.flatten ++ partialJson <+: text

/-- The deltas no longer fit into the store, or into the counters of the check. -/
def BeyondLimit (accepted : List (List Char)) (partialJson : List Char) : Prop :=
  maxStoredPartialBytes < byteLen accepted.flatten ∨ 2 ^ 31 ≤ (accepted.flatten ++ partialJson).length

instance (accepted : List (List Char)) (partialJson : List Char) :
    Decidable (BeyondLimit accepted partialJson) :=
  inferInstanceAs (Decidable (_ ∨ _))

theorem ToolState.Agrees.faithful_iff {entry : ToolState} {account : Ledger}
    (h : entry.Agrees account) : FaithfullyStored entry account ↔
      Capped.NoLateFit Char.utf8Size maxStoredPartialBytes account.accepted := by
  rw [← stored_prefix_iff utf8Size_pos, ← h.partialArgs]
  constructor
  · exact FaithfullyStored.prefixed
  · intro hprefixed
    have hbound : byteLen entry.partialArgs ≤ maxStoredPartialBytes := by
      rw [h.partialArgs]
      exact extent_stored_le maxStoredPartialBytes account.accepted
    have hshorter : byteLen entry.partialArgs < byteLen account.accepted.flatten ↔
        maxStoredPartialBytes < byteLen account.accepted.flatten := by
      rw [h.partialArgs]
      exact extent_stored_lt_iff
    exact ⟨hprefixed, hbound, hshorter.trans h.truncated.symm, h.signalled⟩

/-- Within the limits a piece of a JSON text passes the check. -/
theorem ToolState.Agrees.valid_of_pieces {entry : ToolState} {account : Ledger} (h : entry.Agrees account)
    {partialJson : List Char} (hpieces : PiecesOfJson account.accepted partialJson)
    (hwithin : ¬ BeyondLimit account.accepted partialJson) :
    isValidJsonPrefix entry.partialArgs partialJson = true := by
  obtain ⟨text, hwell, hpart⟩ := hpieces
  simp only [BeyondLimit, not_or, Nat.not_lt, Nat.not_le] at hwithin
  obtain ⟨hroom, hshort⟩ := hwithin
  have hstored : entry.partialArgs = account.accepted.flatten := by
    rw [h.partialArgs]
    exact stored_of_le hroom
  rw [hstored]
  exact isValidJsonPrefix_of_wellFormed hwell hpart hshort

/-- A delta for an entry is refused exactly when the check fails. -/
theorem accumulate_reply {acc : DeltaAccumulator} {id : ToolCallId} {entry : ToolState}
    (h : Assoc.find? id acc.state = some entry) (now : ℕ) (order : HashOrder) (partialJson : List Char) :
    (acc.accumulate now order id partialJson).reply =
      if isValidJsonPrefix entry.partialArgs partialJson then .ok else .err .malformedPartial := by
  rw [accumulate, h]
  dsimp only
  split <;> rfl

/-- In every state that a run of the accumulator reaches, for the entry of every tool call: its text is
stored faithfully exactly when no delta that came behind the limit began with a character for which
there was room; and the next piece of a JSON text is not refused exactly when, beyond the limit, it
passes the check behind what was stored. -/
theorem partial_args_faithful (memoryWatermarkBytes : ℕ) (reqs : List Request) (id : ToolCallId)
    (entry : ToolState)
    (h : Assoc.find? id ((Session.start memoryWatermarkBytes).run reqs).acc.state = some entry) :
    let session := (Session.start memoryWatermarkBytes).run reqs
    let account := ledger id session.published
    (FaithfullyStored entry account ↔
      Capped.NoLateFit Char.utf8Size maxStoredPartialBytes account.accepted) ∧
    ∀ now order partialJson, PiecesOfJson account.accepted partialJson →
      ((session.acc.accumulate now order id partialJson).reply ≠ .err .malformedPartial ↔
        (BeyondLimit account.accepted partialJson →
          isValidJsonPrefix entry.partialArgs partialJson = true)) := by
  have hkept := run_kept (kept_start memoryWatermarkBytes) reqs
  have hagrees := hkept.agrees id entry (Assoc.mem_of_find? h)
  refine ⟨hagrees.faithful_iff, fun now order partialJson hpieces => ?_⟩
  rw [accumulate_reply h now order partialJson]
  constructor
  · intro hreply _
    by_contra hfails
    rw [if_neg hfails] at hreply
    exact hreply rfl
  · intro hvalid
    have hpasses : isValidJsonPrefix entry.partialArgs partialJson = true := by
      by_cases hbeyond : BeyondLimit (ledger id
          ((Session.start memoryWatermarkBytes).run reqs).published).accepted partialJson
      · exact hvalid hbeyond
      · exact hagrees.valid_of_pieces hpieces hbeyond
    rw [if_pos hpasses]
    exact fun heq => Reply.noConfusion heq

/-! ### Texts that are read on -/

namespace JsonNesting

theorem scan_append_of_some {n m : JsonNesting} {s : List Char} (h : n.scan s = some m)
    (t : List Char) : n.scan (s ++ t) = m.scan t := by
  induction s generalizing n with
  | nil =>
    obtain rfl := Option.some.inj h
    rfl
  | cons c s ih =>
    rw [scan] at h
    cases hread : n.read c with
    | none =>
      rw [hread] at h
      cases h
    | some next =>
      rw [hread] at h
      rw [List.cons_append, scan, hread]
      exact ih h

theorem scan_replicate {n : JsonNesting} {c : Char} (h : n.read c = some n) (k : ℕ) :
    n.scan (List.replicate k c) = some n := by
  induction k with
  | zero => rfl
  | succ k ih =>
    rw [List.replicate_succ, scan, h]
    exact ih

end JsonNesting

/-! ### A call with two pieces -/

def startRequest (id : ToolCallId) (taskId : String) : Request :=
  { call := .startTool id taskId "write_file", now := 0, order := HashOrder.asStored }

def deltaRequest (id : ToolCallId) (partialJson : List Char) : Request :=
  { call := .accumulate id partialJson, now := 1, order := HashOrder.asStored }

/-- The first two pieces of a list of two numbers. -/
theorem partial_args_sample :
    let session := (Session.start 1000).run
      [startRequest "tx_1" "task", deltaRequest "tx_1" ['[']]
    (∃ entry, Assoc.find? "tx_1" session.acc.state = some entry ∧
      FaithfullyStored entry (ledger "tx_1" session.published)) ∧
    (session.acc.accumulate 2 HashOrder.asStored "tx_1" [']']).reply ≠
      .err .malformedPartial := by
  have hfind : Assoc.find? "tx_1" ((Session.start 1000).run
      [startRequest "tx_1" "task", deltaRequest "tx_1" ['[']]).acc.state =
      some { id := "tx_1", taskId := "task", name := "write_file", partialArgs := ['['],
             partialArgsTruncated := false, finished := false, deltaQueue := [['[']],
             lastActivity := 1 } := by decide
  obtain ⟨hstored, hjson⟩ := partial_args_faithful 1000
    [startRequest "tx_1" "task", deltaRequest "tx_1" ['[']] "tx_1" _ hfind
  have haccepted : (ledger "tx_1" ((Session.start 1000).run
      [startRequest "tx_1" "task", deltaRequest "tx_1" ['[']]).published).accepted = [['[']] := by
    decide
  rw [haccepted] at hstored hjson
  have hblank : JsonText.Blank [] := nofun
  have hlist : JsonText.WellFormed ['[', ']'] :=
    JsonText.Derives.element hblank (JsonText.Derives.emptyArray hblank) hblank
  refine ⟨⟨_, hfind, hstored.mpr (noLateFit_of_le (by decide))⟩, ?_⟩
  exact (hjson 2 HashOrder.asStored [']'] ⟨_, hlist, List.prefix_rfl⟩).mpr
    fun hbeyond => absurd hbeyond (by decide)

def storing (kept : List Char) (queue : List (List Char)) (cut : Bool) (now : ℕ) : ToolState :=
  { id := "tx_1", taskId := "task", name := "write_file", partialArgs := kept,
    partialArgsTruncated := cut, finished := false, deltaQueue := queue, lastActivity := now }

def storingSession (kept : List Char) (queue : List (List Char)) (cut : Bool) (now : ℕ)
    (published : List PeerDelta) : Session :=
  { acc := { state := [("tx_1", storing kept queue cut now)], memoryWatermarkBytes := 1000000 }
    published := published }

theorem run_start : (Session.start 1000000).run [startRequest "tx_1" "task"] =
    storingSession [] [] false 0 [.toolStart "tx_1" "task" "write_file"] := by
  rfl

theorem step_storing {kept kept' piece : List Char} {q : List (List Char)} {c c' : Bool}
    (hvalid : isValidJsonPrefix kept piece = true)
    (hpush : Capped.push Char.utf8Size maxStoredPartialBytes kept piece = (kept', c'))
    (hqueue : q.length < maxToolDeltaQueueDepth)
    (hroom : byteLen kept' + ((q ++ [piece]).map byteLen).sum ≤ 999000) (now : ℕ)
    (published : List PeerDelta) :
    (storingSession kept q c now published).step (deltaRequest "tx_1" piece) =
      storingSession kept' (q ++ [piece]) (c || c') 1
        (published ++ .toolDelta "tx_1" "task" piece ::
          (if c' && !c then
            some (PeerDelta.partialArgsTruncated "tx_1" "task" maxStoredPartialBytes)
          else none).toList) := by
  have haccept : (storing kept q c now).accept "tx_1" 1 piece =
      (storing kept' (q ++ [piece]) (c || c') 1,
        if c' && !c then some (.partialArgsTruncated "tx_1" "task" maxStoredPartialBytes)
        else none) := by
    rw [ToolState.accept, show (storing kept q c now).partialArgs = kept from rfl, hpush,
      show (storing kept q c now).deltaQueue = q from rfl, if_neg (by omega)]
    rfl
  have hnames : byteLen "tx_1".toList + byteLen "task".toList + byteLen "write_file".toList = 18 := by
    decide
  have hmemory : entryMemory ("tx_1", storing kept' (q ++ [piece]) (c || c') 1) =
      byteLen "tx_1".toList + byteLen "task".toList + byteLen "write_file".toList + byteLen kept' +
        ((q ++ [piece]).map byteLen).sum + 128 := rfl
  have hwithin : overWatermark
      { state := [("tx_1", storing kept q c now)], memoryWatermarkBytes := 1000000 }
      [("tx_1", storing kept' (q ++ [piece]) (c || c') 1)] = false := by
    simp only [overWatermark, estimateMemoryUsage, List.map_cons, List.map_nil,
      List.sum_cons, List.sum_nil, decide_eq_false_iff_not]
    omega
  have hstep : perform
      { state := [("tx_1", storing kept q c now)], memoryWatermarkBytes := 1000000 }
      (deltaRequest "tx_1" piece) =
      { state := [("tx_1", storing kept' (q ++ [piece]) (c || c') 1)]
        published := .toolDelta "tx_1" "task" piece ::
          (if c' && !c then
            some (PeerDelta.partialArgsTruncated "tx_1" "task" maxStoredPartialBytes)
          else none).toList
        reply := .ok } := by
    rw [perform, deltaRequest]
    dsimp only
    rw [accumulate, Assoc.find?, if_pos rfl]
    dsimp only
    rw [if_pos (show isValidJsonPrefix (storing kept q c now).partialArgs piece = true from hvalid),
      haccept, Assoc.insertLast, if_pos rfl, relieve, hwithin, if_neg (by decide),
      Assoc.find?, if_pos rfl]
    rfl
  rw [Session.step, storingSession]
  rw [hstep]
  rfl

/-- 65535 bytes leave room for one byte: the next character has two bytes and is left out, the one
behind it is stored. -/
theorem skipped_character :
    let session := (Session.start 1000000).run
      [startRequest "tx_1" "task", deltaRequest "tx_1" (List.replicate 65535 'x'),
        deltaRequest "tx_1" ['é'], deltaRequest "tx_1" ['x']]
    ∃ entry, Assoc.find? "tx_1" session.acc.state = some entry ∧
      (ledger "tx_1" session.published).accepted = [List.replicate 65535 'x', ['é'], ['x']] ∧
      ¬ entry.partialArgs <+: (ledger "tx_1" session.published).accepted.flatten := by
  have hlong : byteLen (List.replicate 65535 'x') = 65535 := byteLen_replicate 65535 'x'
  have hneutral : ∀ c ∈ ['x', 'é'], JsonNesting.read {} c = some {} := by
    simp [JsonNesting.read]
  have hscan : JsonNesting.scan {} (List.replicate 65535 'x') = some {} :=
    JsonNesting.scan_replicate (hneutral 'x' (by decide)) 65535
  have hvalid : isValidJsonPrefix [] (List.replicate 65535 'x') = true := by
    rw [isValidJsonPrefix, List.nil_append, hscan]
    rfl
  have hbehind : ∀ c ∈ ['x', 'é'], isValidJsonPrefix (List.replicate 65535 'x') [c] = true := by
    intro c hc
    rw [isValidJsonPrefix, JsonNesting.scan_append_of_some hscan, JsonNesting.scan, hneutral c hc]
    rfl
  generalize List.replicate 65535 'x' = long at *
  have hfirst : push Char.utf8Size maxStoredPartialBytes [] long = (long, false) :=
    push_of_le (by rw [Offsets.extent_nil, ← byteLen_eq, hlong]; decide)
  have hsecond : push Char.utf8Size maxStoredPartialBytes long ['é'] = (long, true) :=
    push_of_lt [] (by rw [← byteLen_eq, hlong]; decide)
  have hthird : push Char.utf8Size maxStoredPartialBytes long ['x'] =
      (long ++ ['x'], false) :=
    push_of_le (by rw [← byteLen_eq, hlong]; decide)
  have hrun : (Session.start 1000000).run
      [startRequest "tx_1" "task", deltaRequest "tx_1" long, deltaRequest "tx_1" ['é'],
        deltaRequest "tx_1" ['x']] =
      storingSession (long ++ ['x']) [long, ['é'], ['x']] true 1
        [.toolStart "tx_1" "task" "write_file", .toolDelta "tx_1" "task" long,
          .toolDelta "tx_1" "task" ['é'],
          .partialArgsTruncated "tx_1" "task" maxStoredPartialBytes,
          .toolDelta "tx_1" "task" ['x']] := by
    show Session.step (Session.step (Session.step
      ((Session.start 1000000).run [startRequest "tx_1" "task"]) _) _) _ = _
    have hstep := step_storing (q := []) (c := false) hvalid hfirst (by decide) (by simp [hlong]) 0
    have hstep' := step_storing (q := [long]) (c := false) (hbehind 'é' (by decide)) hsecond
      (by simp [maxToolDeltaQueueDepth]) (by simp [hlong]; decide) 1
    have hstep'' := step_storing (q := [long, ['é']]) (c := true) (hbehind 'x' (by decide)) hthird
      (by simp [maxToolDeltaQueueDepth]) (by simp [hlong]; decide) 1
    rw [run_start, hstep, List.nil_append, Bool.false_or, hstep']
    exact hstep'' _
  rw [hrun]
  refine ⟨_, rfl, rfl, ?_⟩
  show ¬ long ++ ['x'] <+: long ++ (['é'] ++ (['x'] ++ []))
  rw [List.prefix_append_right_inj]
  decide

end Vexcoder.Runtime

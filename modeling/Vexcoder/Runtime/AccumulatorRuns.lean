import Vexcoder.Runtime.DeltaAccumulator

/-!
# What the accumulator keeps of a run

The signals published so far tell what each entry must hold: the `Ledger` of a tool call is the task
that its last start registered, the deltas accepted since, and how often a truncation was signalled.
Every entry of every reachable map agrees with its ledger (`run_kept`): the queue holds the last deltas
in order, the stored text is what fits of them, and the flag says whether something did not fit.
-/

namespace Vexcoder.Runtime

open Base
open Lib DeltaAccumulator

/-! ### The ledger -/

structure Ledger where
  taskId : Option String := none
  accepted : List (List Char) := []
  truncations : ℕ := 0

/-- What one signal says about the tool call `id`. -/
def Ledger.note (id : ToolCallId) (ledger : Ledger) : PeerDelta → Ledger
  | .toolStart toolCallId taskId _ => if toolCallId = id then { taskId := some taskId } else ledger
  | .toolDelta toolCallId _ partialJson =>
    if toolCallId = id then { ledger with accepted := ledger.accepted ++ [partialJson] } else ledger
  | .toolFinish _ _ => ledger
  | .partialArgsTruncated toolCallId _ _ =>
    if toolCallId = id then { ledger with truncations := ledger.truncations + 1 } else ledger

/-- The account of a tool call since its last start. -/
def ledger (id : ToolCallId) (published : List PeerDelta) : Ledger :=
  published.foldl (Ledger.note id) {}

theorem ledger_append (id : ToolCallId) (published more : List PeerDelta) :
    ledger id (published ++ more) = more.foldl (Ledger.note id) (ledger id published) :=
  List.foldl_append

/-- The tool call that a signal is about. -/
def PeerDelta.subject : PeerDelta → ToolCallId
  | .toolStart id _ _ => id
  | .toolDelta id _ _ => id
  | .toolFinish id _ => id
  | .partialArgsTruncated id _ _ => id

variable {id : ToolCallId} {entry : ToolState} {session : Session}

theorem note_of_ne {signal : PeerDelta} (h : signal.subject ≠ id) (account : Ledger) :
    account.note id signal = account := by
  cases signal with
  | toolStart _ _ _ | toolDelta _ _ _ | partialArgsTruncated _ _ _ => exact if_neg h
  | toolFinish _ _ => rfl

theorem foldl_note_of_ne {signals : List PeerDelta} (h : ∀ signal ∈ signals, signal.subject ≠ id)
    (account : Ledger) : signals.foldl (Ledger.note id) account = account := by
  induction signals generalizing account with
  | nil => rfl
  | cons signal signals ih =>
    rw [List.foldl_cons, note_of_ne (h signal List.mem_cons_self)]
    exact ih (fun other hmem => h other (List.mem_cons_of_mem signal hmem)) account

/-! ### What an entry holds -/

def recentDeltas (accepted : List (List Char)) : List (List Char) :=
  accepted.drop (accepted.length - maxToolDeltaQueueDepth)

structure ToolState.Agrees (entry : ToolState) (account : Ledger) : Prop where
  taskId : account.taskId = some entry.taskId
  queue : entry.deltaQueue = recentDeltas account.accepted
  partialArgs : entry.partialArgs = Capped.stored Char.utf8Size maxStoredPartialBytes account.accepted
  truncated : entry.partialArgsTruncated = true ↔ maxStoredPartialBytes < byteLen account.accepted.flatten
  signalled : account.truncations = if entry.partialArgsTruncated then 1 else 0

theorem length_recentDeltas (accepted : List (List Char)) :
    (recentDeltas accepted).length = min accepted.length maxToolDeltaQueueDepth := by
  rw [recentDeltas, List.length_drop]
  omega

theorem recentDeltas_snoc (accepted : List (List Char)) (delta : List Char) :
    recentDeltas (accepted ++ [delta]) =
      (if (recentDeltas accepted).length = maxToolDeltaQueueDepth then (recentDeltas accepted).tail
        else recentDeltas accepted) ++ [delta] := by
  have hdepth : maxToolDeltaQueueDepth = 32 := rfl
  rw [length_recentDeltas]
  by_cases hfull : 32 ≤ accepted.length
  · rw [if_pos (by omega), recentDeltas, recentDeltas, List.length_append, List.length_singleton,
      List.tail_drop, List.drop_append_of_le_length (by omega)]
    rw [show accepted.length + 1 - maxToolDeltaQueueDepth =
      accepted.length - maxToolDeltaQueueDepth + 1 from by omega]
  · rw [if_neg (by omega), recentDeltas, recentDeltas, List.length_append, List.length_singleton,
      show accepted.length + 1 - maxToolDeltaQueueDepth = 0 from by omega,
      show accepted.length - maxToolDeltaQueueDepth = 0 from by omega]
    rfl

theorem agrees_started (id : ToolCallId) (taskId name : String) (now : ℕ) :
    ToolState.Agrees
      { id := id, taskId := taskId, name := name, partialArgs := [], partialArgsTruncated := false,
        finished := false, deltaQueue := [], lastActivity := now }
      { taskId := some taskId } where
  taskId := rfl
  queue := rfl
  partialArgs := rfl
  truncated := by
    show false = true ↔ 65536 < 0
    simp
  signalled := rfl

/-- An entry that has accepted a delta agrees with the account that has noted its signals. -/
theorem ToolState.Agrees.accept {account : Ledger} (h : entry.Agrees account) (id : ToolCallId)
    (now : ℕ) (taskId : String) (partialJson : List Char) :
    (entry.accept id now partialJson).1.Agrees ((PeerDelta.toolDelta id taskId partialJson ::
        (entry.accept id now partialJson).2.toList).foldl (Ledger.note id) account) := by
  have hexceeds := @Capped.exceeds_snoc Char Char.utf8Size maxStoredPartialBytes account.accepted partialJson
  rw [← h.partialArgs] at hexceeds
  have hstored := @Capped.stored_snoc Char Char.utf8Size maxStoredPartialBytes account.accepted partialJson
  rw [← h.partialArgs] at hstored
  have hqueue := recentDeltas_snoc account.accepted partialJson
  rw [← h.queue] at hqueue
  have hflag := h.truncated
  have hcount := h.signalled
  -- the account after the delta, up to the signal of a truncation
  have haccount : ∀ n, ToolState.Agrees (entry.accept id now partialJson).1
      { account with accepted := account.accepted ++ [partialJson], truncations := n } ↔
      n = if (entry.accept id now partialJson).1.partialArgsTruncated then 1 else 0 := by
    intro n
    constructor
    · exact fun hagrees => hagrees.signalled
    · intro hn
      refine ⟨h.taskId, hqueue.symm, hstored.symm, ?_, hn⟩
      show (entry.partialArgsTruncated || (Capped.push Char.utf8Size maxStoredPartialBytes
        entry.partialArgs partialJson).2) = true ↔ _
      rw [Bool.or_eq_true, hflag]
      exact hexceeds.symm
  show ToolState.Agrees _ (((entry.accept id now partialJson).2.toList).foldl (Ledger.note id)
    (account.note id (.toolDelta id taskId partialJson)))
  rw [show account.note id (.toolDelta id taskId partialJson) =
    { account with accepted := account.accepted ++ [partialJson] } from if_pos rfl]
  by_cases hpushed : (Capped.push Char.utf8Size maxStoredPartialBytes entry.partialArgs partialJson).2 = true
  · by_cases hold : entry.partialArgsTruncated = true
    · have hsignal : (entry.accept id now partialJson).2 = none := by
        simp only [ToolState.accept, hold, Bool.not_true, Bool.and_false, Bool.false_eq_true, if_false]
      rw [hsignal]
      refine (haccount account.truncations).mpr ?_
      simp only [ToolState.accept, hold, Bool.true_or, if_true]
      rw [hcount, hold, if_pos rfl]
    · have hsignal : (entry.accept id now partialJson).2 =
          some (.partialArgsTruncated id entry.taskId maxStoredPartialBytes) := by
        simp only [ToolState.accept, hpushed, hold, Bool.not_false, Bool.and_true, if_true]
      rw [hsignal, Option.toList_some, List.foldl_cons, Ledger.note, if_pos rfl]
      refine (haccount (account.truncations + 1)).mpr ?_
      simp only [ToolState.accept, hpushed, Bool.or_true, if_true]
      rw [hcount, if_neg hold]
  · have hsignal : (entry.accept id now partialJson).2 = none := by
      simp only [ToolState.accept, hpushed, Bool.false_and, Bool.false_eq_true, if_false]
    rw [hsignal]
    refine (haccount account.truncations).mpr ?_
    simp only [ToolState.accept, hpushed, Bool.or_false]
    exact hcount

/-! ### The map -/

/-- Every entry agrees with its account, and no tool call has two entries. -/
structure Session.Kept (session : Session) : Prop where
  distinct : (Assoc.keys session.acc.state).Nodup
  agrees : ∀ id entry, (id, entry) ∈ session.acc.state → entry.Agrees (ledger id session.published)

/-- What a call does to a map that is kept: every entry behind it is an old one that no published
signal is about, or one that agrees with the account that has noted the signals. -/
theorem kept_of_entries (h : session.Kept) {effect : Effect} (hdistinct : (Assoc.keys effect.state).Nodup)
    (hentries : ∀ id entry, (id, entry) ∈ effect.state →
      ((id, entry) ∈ session.acc.state ∧ ∀ signal ∈ effect.published, signal.subject ≠ id) ∨
        entry.Agrees (effect.published.foldl (Ledger.note id) (ledger id session.published))) :
    Session.Kept { acc := { session.acc with state := effect.state }
                   published := session.published ++ effect.published } := by
  refine ⟨hdistinct, fun id entry hmem => ?_⟩
  show entry.Agrees (ledger id (session.published ++ effect.published))
  rw [ledger_append]
  rcases hentries id entry hmem with ⟨hold, hothers⟩ | hagrees
  · rw [foldl_note_of_ne hothers]
    exact h.agrees id entry hold
  · exact hagrees

theorem kept_of_sublist (h : session.Kept) {effect : Effect}
    (hstate : effect.state.Sublist session.acc.state) (hsilent : effect.published = []) :
    Session.Kept { acc := { session.acc with state := effect.state }
                   published := session.published ++ effect.published } := by
  refine kept_of_entries h (h.distinct.sublist (hstate.map Prod.fst)) fun id entry hmem => .inl ?_
  refine ⟨hstate.subset hmem, fun signal hsignal => ?_⟩
  rw [hsilent] at hsignal
  cases hsignal

theorem dropOldestPending_sublist (order : HashOrder) (map : ToolMap) :
    (dropOldestPending order map).Sublist map := by
  rw [dropOldestPending]
  split
  · exact List.Sublist.refl map
  · exact List.filter_sublist

theorem relieve_sublist (acc : DeltaAccumulator) (order : HashOrder) (map : ToolMap) :
    (acc.relieve order map).Sublist map := by
  rw [relieve]
  split
  · exact dropOldestPending_sublist order map
  · exact List.Sublist.refl map

theorem mem_insertLast {map : ToolMap} (h : (Assoc.keys map).Nodup) {key : ToolCallId}
    {value : ToolState} (hmem : (key, value) ∈ Assoc.insertLast id entry map) :
    (key = id ∧ value = entry) ∨ (key ≠ id ∧ (key, value) ∈ map) := by
  rcases List.mem_cons.mp ((Assoc.insertLast_perm h id entry).mem_iff.mp hmem) with heq | hold
  · exact .inl (Prod.mk.inj heq)
  · obtain ⟨hin, hne⟩ := List.mem_filter.mp hold
    exact .inr ⟨by simpa using hne, hin⟩

theorem kept_startTool (h : session.Kept) (now : ℕ) (order : HashOrder) (id : ToolCallId)
    (taskId name : String) :
    Session.Kept
      { acc := { session.acc with state := (session.acc.startTool now order id taskId name).state }
        published := session.published ++ (session.acc.startTool now order id taskId name).published } := by
  rw [startTool]
  split
  · exact kept_of_sublist h (List.Sublist.refl _) rfl
  rename_i hnew
  have hsub := relieve_sublist session.acc order session.acc.state
  dsimp only
  split
  · exact kept_of_sublist h hsub rfl
  have habsent : id ∉ Assoc.keys session.acc.state :=
    fun hmem => hnew (Assoc.mem_keys_iff_find?.mp hmem)
  refine kept_of_entries h ?_ fun key entry hmem => ?_
  · show (Assoc.keys (_ ++ _)).Nodup
    rw [Assoc.keys, List.map_append]
    refine List.nodup_append.mpr ⟨h.distinct.sublist (hsub.map Prod.fst),
      List.nodup_cons.mpr ⟨List.not_mem_nil, List.nodup_nil⟩, fun key hkey other hother => ?_⟩
    obtain rfl := List.mem_singleton.mp hother
    rintro rfl
    exact habsent ((hsub.map Prod.fst).subset hkey)
  · rcases List.mem_append.mp hmem with hold | hadded
    · refine .inl ⟨hsub.subset hold, fun signal hsignal => ?_⟩
      obtain rfl := List.mem_singleton.mp hsignal
      rintro rfl
      exact habsent (List.mem_map_of_mem (hsub.subset hold))
    · obtain ⟨rfl, rfl⟩ := Prod.mk.inj (List.mem_singleton.mp hadded)
      refine .inr ?_
      rw [List.foldl_cons, Ledger.note, if_pos rfl]
      exact agrees_started key taskId name now

theorem subject_of_accept {now : ℕ} {taskId : String} {partialJson : List Char} {signal : PeerDelta}
    (h : signal ∈ PeerDelta.toolDelta id taskId partialJson ::
      (entry.accept id now partialJson).2.toList) : signal.subject = id := by
  rcases List.mem_cons.mp h with rfl | hmem
  · rfl
  rw [ToolState.accept] at hmem
  dsimp only at hmem
  split at hmem
  · obtain rfl := List.mem_singleton.mp hmem
    rfl
  · cases hmem

theorem kept_accumulate (h : session.Kept) (now : ℕ) (order : HashOrder) (id : ToolCallId)
    (partialJson : List Char) :
    Session.Kept
      { acc := { session.acc with state := (session.acc.accumulate now order id partialJson).state }
        published := session.published ++ (session.acc.accumulate now order id partialJson).published } := by
  rw [accumulate]
  split
  · exact kept_of_sublist h (List.Sublist.refl _) rfl
  rename_i entry hfind
  split
  · have hdistinct := Assoc.nodup_keys_insertLast h.distinct id (entry.accept id now partialJson).1
    have hsub := relieve_sublist session.acc order
      (Assoc.insertLast id (entry.accept id now partialJson).1 session.acc.state)
    refine kept_of_entries h ?_ fun key value hmem => ?_
    · exact hdistinct.sublist (hsub.map Prod.fst)
    · rcases mem_insertLast h.distinct (hsub.subset hmem) with ⟨rfl, rfl⟩ | ⟨hne, hold⟩
      · have hagrees := h.agrees key entry (Assoc.mem_of_find? hfind)
        exact .inr (hagrees.accept key now _ partialJson)
      · refine .inl ⟨hold, fun signal hsignal => ?_⟩
        rw [subject_of_accept hsignal]
        exact hne.symm
  · exact kept_of_sublist h (List.Sublist.refl _) rfl

theorem kept_finish (h : session.Kept) (now : ℕ) (id : ToolCallId) :
    Session.Kept
      { acc := { session.acc with state := (session.acc.finish now id).state }
        published := session.published ++ (session.acc.finish now id).published } := by
  rw [finish]
  split
  · exact kept_of_sublist h (List.Sublist.refl _) rfl
  rename_i entry hfind
  refine kept_of_entries h (Assoc.nodup_keys_insertLast h.distinct id _) fun key value hmem => ?_
  rcases mem_insertLast h.distinct hmem with ⟨rfl, rfl⟩ | ⟨hne, hold⟩
  · have hagrees := h.agrees key entry (Assoc.mem_of_find? hfind)
    exact .inr ⟨hagrees.taskId, hagrees.queue, hagrees.partialArgs, hagrees.truncated, hagrees.signalled⟩
  · refine .inl ⟨hold, fun signal hsignal => ?_⟩
    obtain rfl := List.mem_singleton.mp hsignal
    exact hne.symm

theorem step_kept (h : session.Kept) (req : Request) : (session.step req).Kept := by
  obtain ⟨call, now, order⟩ := req
  cases call with
  | startTool id taskId name => exact kept_startTool h now order id taskId name
  | accumulate id partialJson => exact kept_accumulate h now order id partialJson
  | finish id => exact kept_finish h now id
  | cleanupFinished olderThan =>
    show Session.Kept { acc := { session.acc with
        state := (session.acc.cleanupFinished now olderThan).state }
                        published := session.published ++
        (session.acc.cleanupFinished now olderThan).published }
    rw [cleanupFinished]
    split
    · exact kept_of_sublist h (List.Sublist.refl _) rfl
    · exact kept_of_sublist h List.filter_sublist rfl
  | cleanupTask taskId =>
    show Session.Kept { acc := { session.acc with state := (session.acc.cleanupTask taskId).state }
                        published := session.published ++ (session.acc.cleanupTask taskId).published }
    rw [cleanupTask]
    exact kept_of_sublist h List.filter_sublist rfl

theorem kept_start (memoryWatermarkBytes : ℕ) : (Session.start memoryWatermarkBytes).Kept :=
  ⟨List.nodup_nil, nofun⟩

/-- Every entry of every reachable map agrees with its account. -/
theorem run_kept (h : session.Kept) (reqs : List Request) : (session.run reqs).Kept := by
  induction reqs generalizing session with
  | nil => exact h
  | cons req reqs ih => exact ih (step_kept h req)

end Vexcoder.Runtime

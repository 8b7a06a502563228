import Vexcoder.Runtime.AccumulatorRuns

/-!
# The discipline of the accumulator's state

What a call may do to the map and to the task of a published delta (`Disciplined`), and the condition
under which it does no more (`StepSafe`).  Two calls can break the discipline, both under memory
pressure: a start that fails although it has dropped a pending entry, and a delta whose own entry is
the one that is dropped.
-/

namespace Vexcoder.Runtime

open Base
open Lib

/-! ### The entry that is dropped -/

theorem minByLastActivity_eq_none_iff {map : ToolMap} : minByLastActivity map = none ↔ map = [] := by
  cases map with
  | nil => exact ⟨fun _ => rfl, fun _ => rfl⟩
  | cons entry map =>
    rw [minByLastActivity]
    cases minByLastActivity map with
    | none => simp
    | some other =>
      dsimp only
      split <;> simp

theorem minByLastActivity_spec {map : ToolMap} {entry : ToolCallId × ToolState}
    (h : minByLastActivity map = some entry) :
    entry ∈ map ∧ ∀ other ∈ map, entry.2.lastActivity ≤ other.2.lastActivity := by
  induction map generalizing entry with
  | nil => cases h
  | cons head map ih =>
    rw [minByLastActivity] at h
    cases hrest : minByLastActivity map with
    | none =>
      rw [hrest] at h
      obtain rfl := Option.some.inj h
      obtain rfl := minByLastActivity_eq_none_iff.mp hrest
      exact ⟨List.mem_cons_self, List.forall_mem_singleton.mpr (Nat.le_refl _)⟩
    | some best =>
      rw [hrest] at h
      obtain ⟨hbest, hleast⟩ := ih hrest
      dsimp only at h
      split at h
      · rename_i hlt
        obtain rfl := Option.some.inj h
        exact ⟨List.mem_cons_of_mem _ hbest, List.forall_mem_cons.mpr ⟨Nat.le_of_lt hlt, hleast⟩⟩
      · rename_i hge
        obtain rfl := Option.some.inj h
        exact ⟨List.mem_cons_self, List.forall_mem_cons.mpr ⟨Nat.le_refl _, fun other hin =>
          Nat.le_trans (Nat.le_of_not_lt hge) (hleast other hin)⟩⟩

/-- An entry that a memory check may remove. -/
structure OldestUnfinished (map : ToolMap) (id : ToolCallId) (entry : ToolState) : Prop where
  present : (id, entry) ∈ map
  unfinished : entry.finished = false
  oldest : ∀ other ∈ map, other.2.finished = false → entry.lastActivity ≤ other.2.lastActivity

theorem oldestPending_spec {order : HashOrder} {map : ToolMap} {id : ToolCallId}
    (h : oldestPending order map = some id) : ∃ entry, OldestUnfinished map id entry := by
  obtain ⟨⟨key, entry⟩, hmin, rfl⟩ := Option.map_eq_some_iff.mp h
  obtain ⟨hmem, hleast⟩ := minByLastActivity_spec hmin
  have hpending : ∀ other, other ∈ (order.walk map).filter (fun entry => !entry.2.finished) ↔
      other ∈ map ∧ other.2.finished = false := by
    intro other
    rw [List.mem_filter, (order.perm map).mem_iff, Bool.not_eq_true']
  obtain ⟨hin, hunfinished⟩ := (hpending _).mp hmem
  exact ⟨entry, hin, hunfinished, fun other hother hopen => hleast other ((hpending other).mpr
    ⟨hother, hopen⟩)⟩

/-- What a memory check leaves out of a map is the oldest unfinished entry. -/
theorem relieve_spec {acc : DeltaAccumulator} {order : HashOrder} {map : ToolMap}
    (hdistinct : (Assoc.keys map).Nodup) {id : ToolCallId} {entry : ToolState}
    (hmem : (id, entry) ∈ map) (hgone : id ∉ Assoc.keys (acc.relieve order map)) :
    acc.overWatermark map = true ∧ oldestPending order map = some id ∧
      OldestUnfinished map id entry := by
  have hkey : id ∈ Assoc.keys map := List.mem_map_of_mem hmem
  rw [DeltaAccumulator.relieve] at hgone
  split at hgone
  · rename_i hover
    rw [dropOldestPending] at hgone
    split at hgone
    · exact absurd hkey hgone
    rename_i oldestId holdest
    have hid : id = oldestId := by
      by_contra hne
      exact hgone (Assoc.mem_keys_erase.mpr ⟨hne, hkey⟩)
    subst hid
    obtain ⟨value, hvalue⟩ := oldestPending_spec holdest
    have hsame : value = entry := by
      have hfind := Assoc.find?_of_mem hdistinct hmem
      rw [Assoc.find?_of_mem hdistinct hvalue.present] at hfind
      exact Option.some.inj hfind
    exact ⟨hover, holdest, hsame ▸ hvalue⟩
  · exact absurd hkey hgone

/-! ### The discipline -/

def DeltaAccumulator.checked (acc : DeltaAccumulator) (req : Request) : ToolMap :=
  match req.call with
  | .accumulate id partialJson =>
    match Assoc.find? id acc.state with
    | some entry => Assoc.insertLast id (entry.accept id req.now partialJson).1 acc.state
    | none => acc.state
  | _ => acc.state

def AccumulatorCall.evicts : AccumulatorCall → Bool
  | .startTool _ _ _ => true
  | .accumulate _ _ => true
  | _ => false

def AccumulatorCall.updates : AccumulatorCall → Option ToolCallId
  | .accumulate id _ => some id
  | .finish id => some id
  | _ => none

structure Disciplined (session : Session) (req : Request) : Prop where
  /-- A call that fails leaves the map as it is. -/
  unchanged : ∀ error, (session.acc.perform req).reply = .err error →
    (session.acc.perform req).state = session.acc.state
  /-- Every queue behind the call holds the last accepted deltas in order. -/
  queues : ∀ id entry, (id, entry) ∈ (session.acc.perform req).state →
    entry.deltaQueue = recentDeltas (ledger id (session.step req).published).accepted
  /-- What memory pressure evicts is the oldest unfinished entry, and not the one being updated. -/
  evicted : req.call.evicts = true → ∀ id entry, (id, entry) ∈ session.acc.checked req →
    id ∉ Assoc.keys (session.acc.perform req).state →
    session.acc.overWatermark (session.acc.checked req) = true ∧
      OldestUnfinished (session.acc.checked req) id entry ∧ req.call.updates ≠ some id
  /-- A published delta carries the task of the last start of its tool call. -/
  registered : ∀ id taskId partialJson,
    .toolDelta id taskId partialJson ∈ (session.acc.perform req).published →
    (ledger id session.published).taskId = some taskId

/-- A start finds its id taken, or room behind the drop of the oldest pending entry, or none to drop;
and a delta that is accepted does not make its own entry the one that is dropped. -/
def StepSafe (acc : DeltaAccumulator) (req : Request) : Prop :=
  match req.call with
  | .startTool id _ _ =>
    (Assoc.find? id acc.state).isSome ∨ acc.overWatermark (acc.relieve req.order acc.state) = false ∨
      oldestPending req.order acc.state = none
  | .accumulate id partialJson =>
    ∀ entry, Assoc.find? id acc.state = some entry →
      isValidJsonPrefix entry.partialArgs partialJson = true →
      acc.overWatermark (acc.checked req) = true → oldestPending req.order (acc.checked req) ≠ some id
  | _ => True

/-! ### What each call does -/

theorem accumulate_cases (acc : DeltaAccumulator) (now : ℕ) (order : HashOrder) (id : ToolCallId)
    (partialJson : List Char) :
    (∃ error, acc.accumulate now order id partialJson =
      { state := acc.state, published := [], reply := .err error } ∧
      ∀ entry, Assoc.find? id acc.state = some entry →
        ¬ isValidJsonPrefix entry.partialArgs partialJson = true) ∨
    ∃ entry, Assoc.find? id acc.state = some entry ∧
      isValidJsonPrefix entry.partialArgs partialJson = true ∧
      acc.accumulate now order id partialJson =
        { state := acc.relieve order (Assoc.insertLast id (entry.accept id now partialJson).1 acc.state)
          published := .toolDelta id
            (((Assoc.find? id (acc.relieve order
              (Assoc.insertLast id (entry.accept id now partialJson).1 acc.state))).map
                ToolState.taskId).getD "") partialJson :: (entry.accept id now partialJson).2.toList
          reply := .ok } := by
  rw [DeltaAccumulator.accumulate]
  cases hfind : Assoc.find? id acc.state with
  | none => exact .inl ⟨.unknownId id, rfl, fun entry h => by cases h⟩
  | some entry =>
    by_cases hvalid : isValidJsonPrefix entry.partialArgs partialJson = true
    · exact .inr ⟨entry, rfl, hvalid, if_pos hvalid⟩
    · refine .inl ⟨.malformedPartial, if_neg hvalid, fun other h => ?_⟩
      obtain rfl := Option.some.inj h
      exact hvalid

/-- A start fails, having relieved the map or not, or adds the entry behind the relieved map. -/
theorem startTool_cases (acc : DeltaAccumulator) (now : ℕ) (order : HashOrder) (id : ToolCallId)
    (taskId name : String) :
    ((Assoc.find? id acc.state).isSome ∧ acc.startTool now order id taskId name =
      { state := acc.state, published := [], reply := .err (.duplicateId id) }) ∨
    (Assoc.find? id acc.state = none ∧ acc.overWatermark acc.state = true ∧
      acc.overWatermark (acc.relieve order acc.state) = true ∧
      acc.startTool now order id taskId name =
        { state := acc.relieve order acc.state, published := [], reply := .err .memoryPressure }) ∨
    (Assoc.find? id acc.state = none ∧ acc.overWatermark (acc.relieve order acc.state) = false ∧
      ∃ entry : ToolState, entry.deltaQueue = [] ∧ acc.startTool now order id taskId name =
        { state := acc.relieve order acc.state ++ [(id, entry)]
          published := [.toolStart id taskId name], reply := .ok }) := by
  rw [DeltaAccumulator.startTool]
  by_cases htaken : (Assoc.find? id acc.state).isSome = true
  · exact .inl ⟨htaken, if_pos htaken⟩
  rw [if_neg htaken]
  have hnew : Assoc.find? id acc.state = none := by simpa using htaken
  by_cases hover : acc.overWatermark acc.state = true
  · by_cases hstill : acc.overWatermark (acc.relieve order acc.state) = true
    · exact .inr (.inl ⟨hnew, hover, hstill, if_pos (by rw [hover, hstill]; rfl)⟩)
    · refine .inr (.inr ⟨hnew, by simpa using hstill, _, rfl, if_neg ?_⟩)
      rw [hover]
      exact hstill
  · have hsame : acc.relieve order acc.state = acc.state := by
      rw [DeltaAccumulator.relieve, if_neg hover]
    refine .inr (.inr ⟨hnew, ?_, _, rfl, if_neg ?_⟩)
    · rw [hsame]
      simpa using hover
    · intro hboth
      exact hover (Bool.and_eq_true_iff.mp hboth).1

/-! ### One call -/

section Step

variable {session : Session} (hkept : session.Kept)

include hkept

theorem queues_kept (req : Request) : ∀ id entry, (id, entry) ∈ (session.acc.perform req).state →
    entry.deltaQueue = recentDeltas (ledger id (session.step req).published).accepted := by
  intro id entry hmem
  exact ((step_kept hkept req).agrees id entry hmem).queue

theorem keys_checked (req : Request) {id : ToolCallId} {entry : ToolState}
    (hmem : (id, entry) ∈ session.acc.checked req) : id ∈ Assoc.keys session.acc.state := by
  rw [DeltaAccumulator.checked] at hmem
  split at hmem
  · split at hmem
    · rename_i hfind
      rcases mem_insertLast hkept.distinct hmem with ⟨rfl, -⟩ | ⟨-, hold⟩
      · exact Assoc.mem_keys_iff_find?.mpr (by rw [hfind]; rfl)
      · exact List.mem_map_of_mem hold
    · exact List.mem_map_of_mem hmem
  · exact List.mem_map_of_mem hmem

theorem disciplined_of_refused {req : Request} {error : AccumulationError}
    (heq : session.acc.perform req =
      { state := session.acc.state, published := [], reply := .err error }) :
    Disciplined session req := by
  refine ⟨fun _ _ => ?_, queues_kept hkept req, fun _ key entry hmem hgone => ?_,
    fun key task json hmem => ?_⟩
  · rw [heq]
  · rw [heq] at hgone
    exact absurd (keys_checked hkept req hmem) hgone
  · rw [heq] at hmem
    cases hmem

theorem startTool_disciplined_iff (now : ℕ) (order : HashOrder) (id : ToolCallId) (taskId name : String) :
    Disciplined session { call := .startTool id taskId name, now := now, order := order } ↔
      StepSafe session.acc { call := .startTool id taskId name, now := now, order := order } := by
  have hperform : session.acc.perform
      { call := .startTool id taskId name, now := now, order := order } =
      session.acc.startTool now order id taskId name := rfl
  have hqueues := queues_kept hkept
    { call := .startTool id taskId name, now := now, order := order }
  rcases startTool_cases session.acc now order id taskId name with
    ⟨htaken, heq⟩ | ⟨hnew, hover, hstill, heq⟩ | ⟨hnew, hroom, entry, -, heq⟩
  · exact ⟨fun _ => .inl htaken, fun _ => disciplined_of_refused hkept heq⟩
  · constructor
    · intro h
      have hsame : session.acc.relieve order session.acc.state = session.acc.state := by
        have hunchanged := h.unchanged .memoryPressure (by rw [hperform, heq])
        rw [hperform, heq] at hunchanged
        exact hunchanged
      refine .inr (.inr ?_)
      -- an entry that was dropped would be missing
      cases holdest : oldestPending order session.acc.state with
      | none => rfl
      | some oldest =>
        obtain ⟨entry, hentry⟩ := oldestPending_spec holdest
        have hrelieved : session.acc.relieve order session.acc.state =
            Assoc.erase oldest session.acc.state := by
          rw [DeltaAccumulator.relieve, if_pos hover, dropOldestPending, holdest]
        have hin : oldest ∈ Assoc.keys session.acc.state := List.mem_map_of_mem hentry.present
        have hkept' : oldest ∈ Assoc.keys (Assoc.erase oldest session.acc.state) := by
          rw [← hrelieved, hsame]
          exact hin
        exact absurd rfl (Assoc.mem_keys_erase.mp hkept').1
    · rintro (htaken | hroom | hnone)
      · rw [hnew] at htaken
        cases htaken
      · have hroom' : session.acc.overWatermark (session.acc.relieve order session.acc.state) =
          false := hroom
        rw [hstill] at hroom'
        cases hroom'
      · have hnone' : oldestPending order session.acc.state = none := hnone
        have hrelieved : session.acc.relieve order session.acc.state = session.acc.state := by
          rw [DeltaAccumulator.relieve, if_pos hover, dropOldestPending, hnone']
        rw [hrelieved] at heq
        exact disciplined_of_refused hkept heq
  · refine ⟨fun _ => .inr (.inl hroom), fun _ => ⟨?_, hqueues, ?_, ?_⟩⟩
    · intro error herr
      rw [hperform, heq] at herr
      cases herr
    · intro _ key value hmem hgone
      rw [hperform, heq] at hgone
      rw [Assoc.keys, List.map_append, List.mem_append, not_or] at hgone
      -- what is not in the relieved map was the oldest
      obtain ⟨hover, -, holdest⟩ := relieve_spec hkept.distinct hmem hgone.1
      exact ⟨hover, holdest, by simp [AccumulatorCall.updates]⟩
    · intro key task json hmem
      rw [hperform, heq] at hmem
      cases List.mem_singleton.mp hmem

theorem accumulate_disciplined_iff (now : ℕ) (order : HashOrder) (id : ToolCallId) (partialJson : List Char) :
    Disciplined session { call := .accumulate id partialJson, now := now, order := order } ↔
      StepSafe session.acc { call := .accumulate id partialJson, now := now, order := order } := by
  have hperform : session.acc.perform
      { call := .accumulate id partialJson, now := now, order := order } =
      session.acc.accumulate now order id partialJson := rfl
  have hqueues := queues_kept hkept
    { call := .accumulate id partialJson, now := now, order := order }
  rcases accumulate_cases session.acc now order id partialJson with
    ⟨error, heq, hrefused⟩ | ⟨entry, hfind, hvalid, heq⟩
  · exact ⟨fun _ entry hentry hok => absurd hok (hrefused entry hentry), fun _ =>
      disciplined_of_refused hkept heq⟩
  · have hchecked : session.acc.checked
        { call := .accumulate id partialJson, now := now, order := order } =
        Assoc.insertLast id (entry.accept id now partialJson).1 session.acc.state := by
      simp only [DeltaAccumulator.checked, hfind]
    have hdistinct := Assoc.nodup_keys_insertLast hkept.distinct id (entry.accept id now partialJson).1
    rw [← hchecked] at hdistinct heq
    have hupdated : (id, (entry.accept id now partialJson).1) ∈ session.acc.checked
        { call := .accumulate id partialJson, now := now, order := order } := by
      rw [hchecked]
      exact Assoc.mem_of_find? (by rw [Assoc.find?_insertLast, if_pos rfl])
    constructor
    · intro h other _ _ hover holdest
      have hgone : id ∉ Assoc.keys (session.acc.relieve order (session.acc.checked
          { call := .accumulate id partialJson, now := now, order := order })) := by
        rw [DeltaAccumulator.relieve, if_pos hover, dropOldestPending, holdest]
        exact Assoc.notMem_keys_erase id _
      rw [show session.acc.relieve order _ = (session.acc.perform
        { call := .accumulate id partialJson, now := now, order := order }).state from by
          rw [hperform, heq]] at hgone
      exact (h.evicted rfl id _ hupdated hgone).2.2 rfl
    · intro hsafe
      have hsafe' := hsafe entry hfind hvalid
      refine ⟨?_, hqueues, ?_, ?_⟩
      · intro error herr
        rw [hperform, heq] at herr
        cases herr
      · intro _ key value hmem hgone
        rw [hperform, heq] at hgone
        obtain ⟨hover, holdest, hvalue⟩ := relieve_spec hdistinct hmem hgone
        refine ⟨hover, hvalue, fun hkey => ?_⟩
        obtain rfl : id = key := Option.some.inj hkey
        exact hsafe' hover holdest
      · intro key task json hmem
        rw [hperform, heq] at hmem
        rcases List.mem_cons.mp hmem with hdelta | hsignal
        · -- the entry is still there when the signal is built
          obtain ⟨rfl, rfl, rfl⟩ := PeerDelta.toolDelta.inj hdelta
          have hin : key ∈ Assoc.keys (session.acc.relieve order (session.acc.checked
              { call := .accumulate key json, now := now, order := order })) := by
            by_contra hgone
            obtain ⟨hover, holdest, -⟩ := relieve_spec hdistinct hupdated hgone
            exact hsafe' hover holdest
          obtain ⟨value, hvalue⟩ := Option.isSome_iff_exists.mp (Assoc.mem_keys_iff_find?.mp hin)
          have hmem := (relieve_sublist session.acc order _).subset (Assoc.mem_of_find? hvalue)
          have hsame : value = (entry.accept key now json).1 := by
            have hfound := Assoc.find?_of_mem hdistinct hmem
            rw [Assoc.find?_of_mem hdistinct hupdated] at hfound
            exact (Option.some.inj hfound).symm
          rw [hvalue, hsame]
          exact (hkept.agrees key entry (Assoc.mem_of_find? hfind)).taskId
        · rw [ToolState.accept] at hsignal
          dsimp only at hsignal
          split at hsignal
          · cases List.mem_singleton.mp hsignal
          · cases hsignal

/-- The other calls are always disciplined: they neither fail nor evict, and publish no delta. -/
theorem disciplined_of_quiet {req : Request} (herr : ∀ error, (session.acc.perform req).reply ≠ .err error)
    (hevicts : req.call.evicts = false)
    (hdelta : ∀ id taskId json, .toolDelta id taskId json ∉ (session.acc.perform req).published) :
    Disciplined session req := by
  refine ⟨fun error h => absurd h (herr error), queues_kept hkept req, fun h => ?_, ?_⟩
  · rw [hevicts] at h
    cases h
  · exact fun id taskId json hmem => absurd hmem (hdelta id taskId json)

/-- In a state that is kept, a call is disciplined exactly when it meets the condition. -/
theorem disciplined_iff (req : Request) : Disciplined session req ↔ StepSafe session.acc req := by
  obtain ⟨call, now, order⟩ := req
  cases call with
  | startTool id taskId name => exact startTool_disciplined_iff hkept now order id taskId name
  | accumulate id partialJson => exact accumulate_disciplined_iff hkept now order id partialJson
  | finish id =>
    refine ⟨fun _ => trivial, fun _ => disciplined_of_quiet hkept ?_ rfl ?_⟩
    · intro error herr
      simp only [DeltaAccumulator.perform, DeltaAccumulator.finish] at herr
      split at herr <;> cases herr
    · intro key taskId json hmem
      simp only [DeltaAccumulator.perform, DeltaAccumulator.finish] at hmem
      split at hmem
      · cases hmem
      · cases List.mem_singleton.mp hmem
  | cleanupFinished olderThan =>
    refine ⟨fun _ => trivial, fun _ => disciplined_of_quiet hkept ?_ rfl ?_⟩
    · intro error herr
      simp only [DeltaAccumulator.perform, DeltaAccumulator.cleanupFinished] at herr
      split at herr <;> cases herr
    · intro key taskId json hmem
      simp only [DeltaAccumulator.perform, DeltaAccumulator.cleanupFinished] at hmem
      split at hmem <;> cases hmem
  | cleanupTask taskId =>
    refine ⟨fun _ => trivial, fun _ => disciplined_of_quiet hkept ?_ rfl ?_⟩
    · intro error herr
      cases herr
    · intro key task json hmem
      cases hmem

end Step

/-- Every call of a run is disciplined exactly when every call meets the condition. -/
theorem accumulator_disciplined (memoryWatermarkBytes : ℕ) (reqs : List Request) :
    (∀ earlier req later, reqs = earlier ++ req :: later →
      Disciplined ((Session.start memoryWatermarkBytes).run earlier) req) ↔
    (∀ earlier req later, reqs = earlier ++ req :: later →
      StepSafe ((Session.start memoryWatermarkBytes).run earlier).acc req) := by
  have hiff : ∀ earlier req, Disciplined ((Session.start memoryWatermarkBytes).run earlier) req ↔
      StepSafe ((Session.start memoryWatermarkBytes).run earlier).acc req :=
    fun earlier req => disciplined_iff (run_kept (kept_start memoryWatermarkBytes) earlier) req
  constructor
  · intro h earlier req later hsplit
    exact (hiff earlier req).mp (h earlier req later hsplit)
  · intro h earlier req later hsplit
    exact (hiff earlier req).mpr (h earlier req later hsplit)

/-- A delta that fills the memory evicts its own entry and is published without its task. -/
theorem evicted_itself :
    ¬ Disciplined
      ((Session.start 1).run [{ call := .startTool "tx_1" "task" "read_file", now := 0,
                                order := HashOrder.asStored }])
      { call := .accumulate "tx_1" ['{'], now := 1, order := HashOrder.asStored } := by
  intro h
  have hempty := h.registered "tx_1" "" ['{'] (by decide)
  revert hempty
  decide

end Vexcoder.Runtime

import Vexcoder.Task.Condenser

/-!
# Runs of a task document

A signal keeps the turn's entries up to what their shape does not show, or appends one entry with the
next step id (`ShapeStep`).  From that the invariants of a whole run follow: step ids count up across
the turns, turns are numbered, finished turns have stopped streaming, and a pending approval is a
request that has not been resolved.
-/

namespace Vexcoder.Task

open Base Lib.Assoc Vexcoder.Runtime

inductive EntryShape where
  | plain (stepId : ℕ)
  | request (stepId : ℕ) (approval : ApprovalDocument)
  | resolved (stepId : ℕ)

def PulseEntry.shape : PulseEntry → EntryShape
  | .approvalRequest stepId approval => .request stepId approval
  | .approvalResolved stepId .. => .resolved stepId
  | entry => .plain entry.stepId

def EntryShape.stepId : EntryShape → ℕ
  | .plain stepId | .request stepId _ | .resolved stepId => stepId

theorem PulseEntry.stepId_shape (entry : PulseEntry) : entry.shape.stepId = entry.stepId := by
  cases entry <;> rfl

/-- What a signal does to the shapes of the entries, the pending approval and the next step id. -/
inductive ShapeStep (next : ℕ) (shapes : List EntryShape) (pending : Option ApprovalDocument) :
    List EntryShape → Option ApprovalDocument → ℕ → Prop
  | keep : ShapeStep next shapes pending shapes pending next
  | append : ShapeStep next shapes pending (shapes ++ [.plain next]) pending (saturatingSucc next)
  | request (approval : ApprovalDocument) (h : approval.stepId = next) :
    ShapeStep next shapes pending (shapes ++ [.request next approval]) (some approval) (saturatingSucc next)
  | resolve : ShapeStep next shapes pending (shapes ++ [.resolved next]) none (saturatingSucc next)

/-! ### Updates of entries -/

theorem shapes_updateFirst {f : PulseEntry → Option PulseEntry}
    (hf : ∀ entry entry', f entry = some entry' → entry'.shape = entry.shape) (entries : List PulseEntry) :
    (updateFirst f entries).map PulseEntry.shape = entries.map PulseEntry.shape := by
  induction entries with
  | nil => rfl
  | cons entry entries ih =>
    rw [updateFirst]
    split
    · rename_i entry' hentry
      rw [List.map_cons, List.map_cons, hf entry entry' hentry]
    · rw [List.map_cons, List.map_cons, ih]

theorem shapes_updateBlockContent (blockIndex : ℕ)
    (mutate : AssistantBlockEntry → AssistantBlockEntry) (active : ActiveTurnDocument) :
    (updateBlockContent blockIndex mutate active).entries.map PulseEntry.shape =
      active.entries.map PulseEntry.shape := by
  rw [updateBlockContent, List.map_reverse, shapes_updateFirst, ← List.map_reverse, List.reverse_reverse]
  intro entry entry' h
  cases entry with
  | assistantBlock stepId block =>
    dsimp only at h
    split at h <;> cases h
    rfl
  | _ => cases h

theorem shapes_setCallStatus (toolCallId : String) (status : ToolStatus) (active : ActiveTurnDocument) :
    (setCallStatus toolCallId status active).entries.map PulseEntry.shape =
      active.entries.map PulseEntry.shape := by
  refine shapes_updateFirst (fun entry entry' h => ?_) _
  cases entry with
  | toolCall stepId id name input old =>
    dsimp only at h
    split at h <;> cases h
    rfl
  | _ => cases h

/-! ### Signals -/

namespace TaskDocument

structure TurnStep (doc : TaskDocument) (active : ActiveTurnDocument) (doc' : TaskDocument) :
    Prop where
  completed : doc'.completedTurns = doc.completedTurns
  turn : ∃ active', doc'.activePulse = some active' ∧ active'.turnIndex = active.turnIndex ∧
    ShapeStep doc.info.nextStepId (active.entries.map PulseEntry.shape) active.pendingApproval
      (active'.entries.map PulseEntry.shape) active'.pendingApproval doc'.info.nextStepId

variable {doc : TaskDocument} {active : ActiveTurnDocument}

theorem turnStep_setActive {active' : ActiveTurnDocument} (hindex : active'.turnIndex = active.turnIndex)
    (hpending : active'.pendingApproval = active.pendingApproval)
    (hentries : active'.entries.map PulseEntry.shape = active.entries.map PulseEntry.shape) :
    TurnStep doc active (doc.setActive active') := by
  refine ⟨rfl, active', rfl, hindex, ?_⟩
  rw [hentries, hpending]
  exact .keep

theorem turnStep_pushEntry {active' : ActiveTurnDocument} {entry : ℕ → PulseEntry}
    (hindex : active'.turnIndex = active.turnIndex)
    (hpending : active'.pendingApproval = active.pendingApproval)
    (hentries : active'.entries.map PulseEntry.shape = active.entries.map PulseEntry.shape)
    (hentry : ∀ stepId, (entry stepId).shape = .plain stepId) :
    TurnStep doc active (doc.pushEntry active' entry) := by
  refine ⟨rfl, _, rfl, hindex, ?_⟩
  simp only [pushEntry, List.map_append, List.map_singleton, hentries, hentry, hpending]
  exact .append

theorem turnStep_self (hactive : doc.activePulse = some active) : TurnStep doc active doc :=
  ⟨rfl, active, hactive, rfl, .keep⟩

theorem turnStep_recordResult (toolCallId : String) (toolName : Option String) (output : String)
    (status : ToolStatus) (isError : Bool) :
    TurnStep doc active (recordResult doc active toolCallId toolName output status isError).1 := by
  simp only [recordResult]
  exact turnStep_pushEntry (by rfl) (by rfl) (by exact shapes_setCallStatus _ _ _) fun _ => by rfl

variable {start : ℕ} {doc' : TaskDocument} (now now' : ℕ)

theorem turnStep_applyToActive (hactive : doc.activePulse = some active) (signal : RuntimeSignal) :
    TurnStep doc active (applyToActive now doc active signal).1 := by
  cases signal with
  | transcriptLine line | toolCallStarted =>
    simp only [applyToActive]
    exact turnStep_pushEntry (by rfl) (by rfl) (by rfl) fun _ => by rfl
  | transcriptBlockStart index block =>
    cases block with
    | thinking content collapsed =>
      simp only [applyToActive]
      exact turnStep_pushEntry (by rfl) (by rfl) (by rfl) fun _ => by rfl
    | finalText content =>
      simp only [applyToActive]
      exact turnStep_pushEntry (by rfl) (by rfl) (by rfl) fun _ => by rfl
    | _ => exact turnStep_self hactive
  | transcriptBlockDelta index delta | transcriptBlockComplete index
  | transcriptBlockPhaseUpdated index phase streaming =>
    exact turnStep_setActive rfl rfl (shapes_updateBlockContent _ _ _)
  | toolCallStatusUpdated toolCallId status =>
    exact turnStep_setActive rfl rfl (shapes_setCallStatus _ _ _)
  | toolCallCompleted | toolCallFailed => exact turnStep_recordResult _ _ _ _ _
  | approvalRequest capability scope toolName =>
    simp only [applyToActive]
    split
    · refine ⟨rfl, _, rfl, rfl, ?_⟩
      simp only [List.map_append, List.map_singleton]
      exact .request _ rfl
    · exact turnStep_self hactive
  | approvalResolved capability scope approved =>
    simp only [applyToActive]
    split
    · rename_i capability scope _ _
      refine ⟨rfl, _, rfl, rfl, ?_⟩
      have hnext : ∀ info : TaskInfo,
          (recordGrant info capability scope approved).nextStepId = info.nextStepId := fun info => by
        cases approved <;> cases scope <;> rfl
      show ShapeStep _ _ _ _ none (recordGrant _ capability scope approved).nextStepId
      simp only [hnext, List.map_append, List.map_singleton]
      exact .resolve
    · exact turnStep_self hactive
  | serverMetadata metadata | pulseEnd status usage changedFiles => exact turnStep_setActive rfl rfl rfl
  | _ => exact turnStep_self hactive

theorem applyToTask_turn (signal : RuntimeSignal) (doc : TaskDocument) (summary : TaskMutationSummary) :
    (applyToTask signal doc summary).1.completedTurns = doc.completedTurns ∧
      (applyToTask signal doc summary).1.activePulse = doc.activePulse ∧
      (applyToTask signal doc summary).1.info.nextStepId = doc.info.nextStepId := by
  cases signal with
  | error code message recoverable => cases recoverable <;> exact ⟨rfl, rfl, rfl⟩
  | _ => exact ⟨rfl, rfl, rfl⟩

theorem turnStep_applyRuntimeSignal (hactive : doc.activePulse = some active)
    (signal : RuntimeSignal) : TurnStep doc active (applyRuntimeSignal now now' doc signal).1 := by
  have hstep := turnStep_applyToActive now hactive signal
  simp only [applyRuntimeSignal, hactive]
  generalize applyToActive now doc active signal = r at hstep
  obtain ⟨doc', summary, returned⟩ := r
  cases returned with
  | true => exact hstep
  | false =>
    obtain ⟨hcompleted, hpulse, hnext⟩ := applyToTask_turn signal doc' summary
    obtain ⟨hdone, active', hactive', hindex, hshape⟩ := hstep
    exact ⟨hcompleted.trans hdone, active', hpulse.trans hactive', hindex, hnext.symm ▸ hshape⟩

theorem applyRuntimeSignal_idle (hactive : doc.activePulse = none) (signal : RuntimeSignal) :
    (applyRuntimeSignal now now' doc signal).1.completedTurns = doc.completedTurns ∧
      (applyRuntimeSignal now now' doc signal).1.activePulse = none ∧
      (applyRuntimeSignal now now' doc signal).1.info.nextStepId = doc.info.nextStepId := by
  simp only [applyRuntimeSignal, hactive]
  obtain ⟨hcompleted, hpulse, hnext⟩ := applyToTask_turn signal doc {}
  exact ⟨hcompleted, hpulse.trans hactive, hnext⟩

/-! ### The invariants -/

def activeEntries (doc : TaskDocument) : List PulseEntry :=
  match doc.activePulse with
  | some active => active.entries
  | none => []

/-- The shapes of all entries: those of the completed turns, then those of the running one. -/
def shapes (doc : TaskDocument) : List EntryShape :=
  (doc.completedTurns.flatMap (·.entries) ++ doc.activeEntries).map PulseEntry.shape

def stepIds (doc : TaskDocument) : List ℕ :=
  (doc.completedTurns.flatMap (·.entries) ++ doc.activeEntries).map PulseEntry.stepId

/-- The approval is that of a request which nothing behind it resolves. -/
def Requested (shapes : List EntryShape) (approval : ApprovalDocument) : Prop :=
  ∃ before after, shapes = before ++ .request approval.stepId approval :: after ∧
    ∀ stepId, EntryShape.resolved stepId ∉ after

/-- The ids that a counter gives which starts at `start` and saturates. -/
def counted (start count : ℕ) : List ℕ := (List.range count).map fun i => min (start + i) u64Max

structure RunInv (start : ℕ) (doc : TaskDocument) : Prop where
  ids : doc.shapes.map EntryShape.stepId = counted start doc.shapes.length
  next : doc.info.nextStepId = min (start + doc.shapes.length) u64Max
  indices : ∀ i (h : i < doc.completedTurns.length), doc.completedTurns[i].turnIndex = i
  activeIndex : ∀ active, doc.activePulse = some active → active.turnIndex = doc.completedTurns.length
  stopped : ∀ turn ∈ doc.completedTurns, ∀ stepId block,
    PulseEntry.assistantBlock stepId block ∈ turn.entries → block.streaming = false
  pending : ∀ active approval, doc.activePulse = some active →
    active.pendingApproval = some approval →
    Requested (active.entries.map PulseEntry.shape) approval

theorem counted_succ (start count : ℕ) :
    counted start (count + 1) = counted start count ++ [min (start + count) u64Max] := by
  simp [counted, List.range_succ]

theorem saturatingSucc_min (n : ℕ) : saturatingSucc (min n u64Max) = min (n + 1) u64Max := by
  simp only [saturatingSucc]
  omega

theorem ids_append {next : ℕ} {shapes : List EntryShape} (shape : EntryShape)
    (hids : shapes.map EntryShape.stepId = counted start shapes.length)
    (hnext : next = min (start + shapes.length) u64Max) (hshape : shape.stepId = next) :
    (shapes ++ [shape]).map EntryShape.stepId = counted start (shapes ++ [shape]).length ∧
      saturatingSucc next = min (start + (shapes ++ [shape]).length) u64Max := by
  refine ⟨?_, ?_⟩
  · rw [List.map_append, List.map_singleton, List.length_append, List.length_singleton,
      counted_succ, hids, hshape, hnext]
  · rw [hnext, saturatingSucc_min, List.length_append, List.length_singleton, Nat.add_assoc]

theorem Requested.append {shapes : List EntryShape} {approval : ApprovalDocument}
    (h : Requested shapes approval) {shape : EntryShape}
    (hshape : ∀ stepId, shape ≠ .resolved stepId) : Requested (shapes ++ [shape]) approval := by
  obtain ⟨before, after, rfl, hafter⟩ := h
  refine ⟨before, after ++ [shape], by simp, fun stepId hmem => ?_⟩
  rcases List.mem_append.mp hmem with hmem | hmem
  · exact hafter stepId hmem
  · exact hshape stepId (List.mem_singleton.mp hmem).symm

theorem shapes_of_active (hactive : doc.activePulse = some active) :
    doc.shapes = (doc.completedTurns.flatMap (·.entries)).map PulseEntry.shape ++
      active.entries.map PulseEntry.shape := by
  rw [shapes, activeEntries, hactive, List.map_append]

theorem shapes_of_idle (hactive : doc.activePulse = none) :
    doc.shapes = (doc.completedTurns.flatMap (·.entries)).map PulseEntry.shape := by
  rw [shapes, activeEntries, hactive, List.append_nil]

theorem runInv_turnStep (h : RunInv start doc) (hactive : doc.activePulse = some active)
    (hstep : TurnStep doc active doc') : RunInv start doc' := by
  obtain ⟨hcompleted, active', hactive', hindex, hshape⟩ := hstep
  have hrequested : ∀ approval, active.pendingApproval = some approval →
      Requested (active.entries.map PulseEntry.shape) approval :=
    fun approval => h.pending active approval hactive
  have hrest : ∀ a, doc'.activePulse = some a → a = active' := fun a ha =>
    Option.some.inj (ha.symm.trans hactive')
  have hshapes := shapes_of_active hactive
  have hshapes' : doc'.shapes = (doc.completedTurns.flatMap (·.entries)).map PulseEntry.shape ++
      active'.entries.map PulseEntry.shape := by rw [← hcompleted]; exact shapes_of_active hactive'
  -- the numbering, and the pending approval, in each of the four cases
  have hnumbered : doc'.shapes.map EntryShape.stepId = counted start doc'.shapes.length ∧
      doc'.info.nextStepId = min (start + doc'.shapes.length) u64Max ∧
      ∀ approval, active'.pendingApproval = some approval →
        Requested (active'.entries.map PulseEntry.shape) approval := by
    rw [hshapes']
    generalize active'.entries.map PulseEntry.shape = shapes' at hshape ⊢
    generalize active'.pendingApproval = pending' at hshape ⊢
    generalize doc'.info.nextStepId = next' at hshape ⊢
    cases hshape with
    | keep =>
      rw [← hshapes]
      exact ⟨h.ids, h.next, hrequested⟩
    | append =>
      rw [← List.append_assoc, ← hshapes]
      obtain ⟨hids, hnext⟩ := ids_append (.plain doc.info.nextStepId) h.ids h.next rfl
      exact ⟨hids, hnext, fun approval happroval =>
        (hrequested approval happroval).append fun _ => EntryShape.noConfusion⟩
    | request approval happroval =>
      rw [← List.append_assoc, ← hshapes]
      obtain ⟨hids, hnext⟩ := ids_append (.request doc.info.nextStepId approval) h.ids h.next rfl
      refine ⟨hids, hnext, fun approval' happroval' => ?_⟩
      obtain rfl := Option.some.inj happroval'
      exact ⟨_, [], by rw [happroval], by simp⟩
    | resolve =>
      rw [← List.append_assoc, ← hshapes]
      obtain ⟨hids, hnext⟩ := ids_append (.resolved doc.info.nextStepId) h.ids h.next rfl
      exact ⟨hids, hnext, fun approval happroval => by cases happroval⟩
  obtain ⟨hids, hnext, hpending⟩ := hnumbered
  refine ⟨hids, hnext, ?_, fun a ha => ?_, ?_, fun a approval ha => ?_⟩
  · rw [hcompleted]; exact h.indices
  · rw [hrest a ha, hindex, hcompleted]
    exact h.activeIndex active hactive
  · rw [hcompleted]; exact h.stopped
  · rw [hrest a ha]
    exact hpending approval

theorem runInv_beginTask {info : TaskInfo} (h : info.nextStepId ≤ u64Max) :
    RunInv info.nextStepId (beginTask info) where
  ids := rfl
  next := (Nat.min_eq_left h).symm
  indices := fun i hi => absurd hi (Nat.not_lt_zero i)
  activeIndex := fun _ ha => by cases ha
  stopped := fun _ ht => absurd ht List.not_mem_nil
  pending := fun _ _ ha => by cases ha

theorem runInv_beginTurn {input : String} {startedAtMs : ℕ} {toolPolicy : PulseToolPolicy}
    (h : RunInv start doc) (hbegin : doc.beginTurn input startedAtMs toolPolicy = some doc') :
    RunInv start doc' := by
  unfold beginTurn at hbegin
  split at hbegin
  · cases hbegin
  rename_i hopen
  have hidle : doc.activePulse = none := Option.not_isSome_iff_eq_none.mp hopen
  obtain rfl := Option.some.inj hbegin
  have hids := h.ids
  have hnext := h.next
  rw [shapes_of_idle hidle] at hids hnext
  obtain ⟨hids', hnext'⟩ := ids_append (.plain doc.info.nextStepId) hids hnext rfl
  refine ⟨?_, ?_, h.indices, fun active ha => ?_, h.stopped, fun active approval ha hp => ?_⟩
  · rw [shapes_of_active rfl]
    exact hids'
  · rw [shapes_of_active rfl]
    exact hnext'
  · obtain rfl := Option.some.inj ha
    rfl
  · obtain rfl := Option.some.inj ha
    cases hp

theorem runInv_applyRuntimeSignal (h : RunInv start doc) (signal : RuntimeSignal) :
    RunInv start (applyRuntimeSignal now now' doc signal).1 := by
  cases hactive : doc.activePulse with
  | some active =>
    exact runInv_turnStep h hactive (turnStep_applyRuntimeSignal now now' hactive signal)
  | none =>
    obtain ⟨hcompleted, hidle, hnext⟩ := applyRuntimeSignal_idle now now' hactive signal
    have hshapes : (applyRuntimeSignal now now' doc signal).1.shapes = doc.shapes := by
      rw [shapes_of_idle hidle, shapes_of_idle hactive, hcompleted]
    refine ⟨?_, ?_, ?_, fun active ha => ?_, ?_, fun active approval ha => ?_⟩
    · rw [hshapes]; exact h.ids
    · rw [hshapes, hnext]; exact h.next
    · rw [hcompleted]; exact h.indices
    · rw [hidle] at ha; cases ha
    · rw [hcompleted]; exact h.stopped
    · rw [hidle] at ha; cases ha

theorem shape_stopStreaming (entry : PulseEntry) : (stopStreaming entry).shape = entry.shape := by
  cases entry <;> rfl

theorem stopStreaming_stopped {entry : PulseEntry} {stepId : ℕ} {block : AssistantBlockEntry}
    (h : stopStreaming entry = .assistantBlock stepId block) : block.streaming = false := by
  cases entry with
  | assistantBlock stepId' block' =>
    obtain ⟨-, rfl⟩ := PulseEntry.assistantBlock.inj h
    rfl
  | _ => cases h

theorem shapes_finishTurn (hactive : doc.activePulse = some active) (outcome : PulseOutcome)
    (tokens : PulseTokens) (completedAtMs : ℕ) :
    (doc.finishTurn outcome tokens completedAtMs).1.shapes = doc.shapes := by
  rw [shapes_of_active hactive, shapes_of_idle (by simp only [finishTurn, hactive])]
  simp only [finishTurn, hactive, List.flatMap_append, List.flatMap_singleton, List.map_append, List.map_map]
  congr 2
  funext entry
  exact shape_stopStreaming entry

theorem runInv_finishTurn (h : RunInv start doc) (outcome : PulseOutcome) (tokens : PulseTokens)
    (completedAtMs : ℕ) : RunInv start (doc.finishTurn outcome tokens completedAtMs).1 := by
  cases hactive : doc.activePulse with
  | none =>
    simp only [finishTurn, hactive]
    exact h
  | some active =>
    have hshapes := shapes_finishTurn hactive outcome tokens completedAtMs
    refine ⟨?_, ?_, fun i hi => ?_, fun a ha => ?_, fun turn hturn => ?_, fun a _ ha => ?_⟩
    · rw [hshapes]; exact h.ids
    · rw [hshapes]
      simp only [finishTurn, hactive]
      exact h.next
    · simp only [finishTurn, hactive, List.length_append, List.length_singleton] at hi ⊢
      rw [List.getElem_append]
      split
      · exact h.indices i _
      · simp only [List.getElem_singleton]
        rw [h.activeIndex active hactive]
        omega
    · simp only [finishTurn, hactive] at ha
      cases ha
    · simp only [finishTurn, hactive, List.mem_append, List.mem_singleton] at hturn
      rcases hturn with hturn | rfl
      · exact h.stopped turn hturn
      · intro stepId block hmem
        obtain ⟨entry, -, hentry⟩ := List.mem_map.mp hmem
        exact stopStreaming_stopped hentry
    · simp only [finishTurn, hactive] at ha
      cases ha

/-! ### Runs -/

inductive DocOp where
  | beginTurn (input : String) (startedAtMs : ℕ) (toolPolicy : PulseToolPolicy)
  | signal (now now' : ℕ) (signal : RuntimeSignal)
  | finishTurn (outcome : PulseOutcome) (tokens : PulseTokens) (completedAtMs : ℕ)

def runOp (doc : TaskDocument) : DocOp → Option TaskDocument
  | .beginTurn input startedAtMs toolPolicy => doc.beginTurn input startedAtMs toolPolicy
  | .signal now now' signal => some (applyRuntimeSignal now now' doc signal).1
  | .finishTurn outcome tokens completedAtMs => some (doc.finishTurn outcome tokens completedAtMs).1

/-- All calls in order; `none` when a turn is begun while another one is open. -/
def run (doc : TaskDocument) : List DocOp → Option TaskDocument
  | [] => some doc
  | op :: ops => (doc.runOp op).bind fun doc' => doc'.run ops

theorem runInv_runOp (h : RunInv start doc) {op : DocOp} (hop : doc.runOp op = some doc') :
    RunInv start doc' := by
  cases op with
  | beginTurn input startedAtMs toolPolicy => exact runInv_beginTurn h hop
  | signal now now' signal =>
    obtain rfl := Option.some.inj hop
    exact runInv_applyRuntimeSignal now now' h signal
  | finishTurn outcome tokens completedAtMs =>
    obtain rfl := Option.some.inj hop
    exact runInv_finishTurn h outcome tokens completedAtMs

theorem runInv_run (ops : List DocOp) {doc : TaskDocument} (h : RunInv start doc)
    (hrun : doc.run ops = some doc') : RunInv start doc' := by
  induction ops generalizing doc with
  | nil =>
    obtain rfl := Option.some.inj hrun
    exact h
  | cons op ops ih =>
    obtain ⟨doc₁, hop, hops⟩ := Option.bind_eq_some_iff.mp hrun
    exact ih (runInv_runOp h hop) hops

theorem stepIds_eq (doc : TaskDocument) : doc.stepIds = doc.shapes.map EntryShape.stepId := by
  rw [stepIds, shapes, List.map_map]
  congr 1
  funext entry
  exact entry.stepId_shape.symm

theorem shape_eq_request {entry : PulseEntry} {stepId : ℕ} {approval : ApprovalDocument}
    (h : entry.shape = .request stepId approval) : entry = .approvalRequest stepId approval := by
  cases entry <;> cases h
  rfl

structure WellFormed (doc : TaskDocument) : Prop where
  increasing : doc.stepIds.Pairwise (· < ·)
  distinct : doc.stepIds.Nodup
  belowNext : ∀ stepId ∈ doc.stepIds, stepId < doc.info.nextStepId
  turnIndices : ∀ i (h : i < doc.completedTurns.length), doc.completedTurns[i].turnIndex = i
  activeIndex : ∀ active, doc.activePulse = some active → active.turnIndex = doc.completedTurns.length
  stopped : ∀ turn ∈ doc.completedTurns, ∀ stepId block,
    PulseEntry.assistantBlock stepId block ∈ turn.entries → block.streaming = false
  pending : ∀ active approval, doc.activePulse = some active →
    active.pendingApproval = some approval →
    ∃ before after, active.entries = before ++ .approvalRequest approval.stepId approval :: after ∧
      ∀ stepId capability scope approved, PulseEntry.approvalResolved stepId capability scope approved ∉ after

theorem counted_eq {count : ℕ} (h : start + count ≤ u64Max) :
    counted start count = List.range' start count := by
  rw [List.range'_eq_map_range]
  refine List.map_congr_left fun i hi => Nat.min_eq_left ?_
  have := List.mem_range.mp hi
  omega

theorem wellFormed_of_runInv (h : RunInv start doc) (hsteps : start + doc.stepIds.length ≤ u64Max) :
    doc.WellFormed := by
  have hids : doc.stepIds = List.range' start doc.stepIds.length := by
    rw [← counted_eq hsteps, stepIds_eq, List.length_map, h.ids]
  have hnext : doc.info.nextStepId = start + doc.stepIds.length := by
    rw [h.next, stepIds_eq, List.length_map]
    refine Nat.min_eq_left ?_
    rw [stepIds_eq, List.length_map] at hsteps
    exact hsteps
  refine ⟨?_, ?_, fun stepId hmem => ?_, h.indices, h.activeIndex, h.stopped,
    fun active approval ha hp => ?_⟩
  · rw [hids]; exact List.pairwise_lt_range'
  · rw [hids]; exact List.nodup_range'
  · rw [hids, List.mem_range'_1] at hmem
    rw [hnext]
    exact hmem.2
  · obtain ⟨before, after, hsplit, hafter⟩ := h.pending active approval ha hp
    obtain ⟨entries₁, entries₂, hentries, -, hsplit⟩ := List.map_eq_append_iff.mp hsplit
    obtain ⟨entry, entries₃, rfl, hentry, rfl⟩ := List.map_eq_cons_iff.mp hsplit
    refine ⟨entries₁, entries₃, by rw [hentries, shape_eq_request hentry], ?_⟩
    intro stepId capability scope approved hmem
    exact hafter stepId (List.mem_map.mpr ⟨_, hmem, rfl⟩)

/-- **The record of a run**: after any calls that never begin a turn inside a turn, and as long as
the counter has not run out, step ids count up in the order of the entries, turns are numbered,
finished turns have stopped streaming, and a pending approval is an unresolved request of the running
turn. -/
theorem wellFormed_run (info : TaskInfo) (ops : List DocOp) (doc : TaskDocument)
    (hrun : (beginTask info).run ops = some doc)
    (hsteps : info.nextStepId + doc.stepIds.length < 2 ^ 64) : doc.WellFormed :=
  wellFormed_of_runInv
    (runInv_run ops (runInv_beginTask (by simp only [u64Max]; omega)) hrun)
    (by simp only [u64Max]; omega)

def sampleOps : List DocOp :=
  [.beginTurn "a" 1 .default, .signal 2 3 (.transcriptBlockStart 0 (.finalText "b")),
    .finishTurn .completed {} 4, .beginTurn "c" 5 .default,
    .signal 6 7 (.approvalRequest "run_command" "once" none)]

theorem wellFormed_run_sample :
    ∃ doc, (beginTask {}).run sampleOps = some doc ∧ doc.stepIds = [0, 1, 2, 3] ∧ doc.WellFormed :=
  ⟨_, rfl, by decide, wellFormed_run {} sampleOps _ rfl (by decide)⟩

end TaskDocument

end Vexcoder.Task
